import Lox.Machine

/-!
# Host functions

The functions that every session knows, and a few more that a host may add.
-/

namespace Lox

namespace Host

/-- The time, which stands still during a run. -/
def clock (now : Number) : HostFunction := fun _ => .ok (.number now)

/-- Twice a number. -/
def double : HostFunction
  | [.number x] => .ok (.number (x + x))
  | _ => .error "double expects a number"

/-- The text of a value. -/
def display : HostFunction
  | value :: _ => .ok (.string value.display)
  | [] => .ok .nil

/-- Whether two values are equal. -/
def same : HostFunction
  | [a, b] => .ok (.bool (a.equal b))
  | _ => .ok .nil

def fail : HostFunction := fun _ => .error "host failure"

end Host

/-- A machine that knows the time. -/
def Machine.withClock (now : Number) : Machine := empty.register "clock" 0 (Host.clock now)

/-- A machine with all host functions. -/
def Machine.withHostFunctions (m : Machine) : Machine :=
  ((m.register "double" 1 Host.double).register "show" 1 Host.display).register "same" 2 Host.same
    |>.register "fail" 0 Host.fail

end Lox
