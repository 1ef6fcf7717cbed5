import Lox.Proofs.Grammar.Numbers
import Lox.Proofs.Token.Joining

/-!
# Lone expressions

What is read as one expression is what can stand between `print` and a semicolon. The tokens are the
same, since the keyword before them and the semicolon after a line break leave them alone, and what
ends an expression does not matter as long as it cannot go on with it.

## Main results

* `Reading.finds_of_expressionOfSource`, `Reading.expressionOfSource_of_finds`: a text is read as an
  expression just in case its tokens are a phrase.
* `Grammar.phrase_of_printed`: between `print` and a semicolon, tokens among which there is no other
  semicolon are a phrase.
-/

namespace Lox

open Grammar

/-! ### Tokens -/

/-- The text that prints an expression. -/
def printing (source : String) : String := "print " ++ source ++ "\n;"

namespace Token

/-- The keyword at the start of a text that prints. -/
def ofPrint : Token := ⟨.keyword .kwPrint, "print", 1⟩

def ofSemicolon (line : Nat) : Token := ⟨.symbol .semicolon, ";", line⟩

end Token

namespace Scan

variable {source : String} {body : List Token}

/-- The keyword before a text is a token of its own, on the same line. -/
theorem Finds.afterPrint (h : Finds source body) : Finds ("print " ++ source) (.ofPrint :: body) := by
  have hitems : Source.itemsFrom 1 ("print " ++ source).toList =
      .ok .ofPrint :: Source.itemsFrom 1 source.toList := by
    rw [String.toList_append]
    show Source.itemsFrom 1 ('p' :: 'r' :: 'i' :: 'n' :: 't' :: ' ' :: source.toList) = _
    rw [Source.itemsFrom_cons]
    show _ :: Source.itemsFrom 1 (' ' :: source.toList) = _
    rw [Source.itemsFrom_cons]
    rfl
  obtain ⟨line, htokens, hfaults⟩ := h
  have hofText : ofText ("print " ++ source) =
      ofItems (.ok .ofPrint :: Source.itemsFrom 1 source.toList) := congrArg ofItems hitems
  refine ⟨line, ?_, ?_⟩
  · rw [hofText]
    exact congrArg (Token.ofPrint :: ·) htokens
  · rw [hofText]
    exact hfaults

theorem finds_semicolon : Finds ";" [.ofSemicolon 1] := ⟨1, by decide +kernel⟩

/-- The tokens of the text that prints an expression. -/
theorem Finds.printing (h : Finds source body) :
    ∃ line, Finds (printing source) (.ofPrint :: body ++ [.ofSemicolon line]) := by
  obtain ⟨lines, hjoined⟩ := h.afterPrint.join finds_semicolon
  have htext : Lox.printing source = "print " ++ source ++ "\n" ++ ";" := by
    rw [Lox.printing, show "\n;" = "\n" ++ ";" from rfl, ← String.append_assoc]
  exact ⟨1 + lines, htext ▸ hjoined⟩

end Scan

/-! ### The grammar -/

namespace Grammar

variable {body : List Token} {keyword semicolon : Token} {e : Expr} {statements : List Stmt}

theorem Phrase.printed (h : Phrase .expression body e) (hk : keyword.kind = .keyword .kwPrint)
    (hs : semicolon.kind = .symbol .semicolon) :
    Program (keyword :: body ++ [semicolon]) [.print e] := by
  have hprogram := Clause.moreDeclarations (.statement (.print hk h hs)) .noDeclarations
  rwa [List.append_nil] at hprogram

/-- A declaration that begins with `print` prints an expression. -/
theorem Clause.of_print {ts : List Token} {s : Stmt} (h : Clause .declaration (keyword :: ts) s)
    (hk : keyword.kind = .keyword .kwPrint) :
    ∃ us e semicolon, ts = us ++ [semicolon] ∧ semicolon.kind = .symbol .semicolon ∧
      Phrase .expression us e := by
  generalize hall : keyword :: ts = all at h
  cases h with
  | classDef hkeyword | funDeclaration hkeyword | varDeclaration hkeyword =>
    obtain ⟨rfl, -⟩ := List.cons.inj hall
    cases hk.symm.trans hkeyword
  | statement h =>
    cases h with
    | expression h =>
      obtain ⟨first, rest, rfl, hfirst⟩ := h.first nofun
      obtain ⟨rfl, -⟩ := List.cons.inj hall
      rw [hk] at hfirst
      exact absurd hfirst (by decide)
    | print _ h hs =>
      obtain ⟨-, rfl⟩ := List.cons.inj hall
      exact ⟨_, _, _, rfl, hs, h⟩
    | ret hkeyword | block hkeyword | ifThen hkeyword =>
      obtain ⟨rfl, -⟩ := List.cons.inj hall
      cases hk.symm.trans hkeyword
    | ifThenElse hkeyword | whileLoop hkeyword | forLoop hkeyword =>
      obtain ⟨rfl, -⟩ := List.cons.inj hall
      cases hk.symm.trans hkeyword

/-- Tokens without a semicolon that `print` and a semicolon make a program of are an expression. -/
theorem phrase_of_printed (h : Program (keyword :: body ++ [semicolon]) statements)
    (hk : keyword.kind = .keyword .kwPrint) (hbody : ∀ t ∈ body, t.kind ≠ .symbol .semicolon) :
    ∃ e, Phrase .expression body e := by
  generalize hall : keyword :: body ++ [semicolon] = all at h
  cases h with
  | noDeclarations => cases hall
  | @moreDeclarations ts us s rest h hrest =>
    obtain ⟨first, more, rfl, -⟩ := h.first nofun nofun
    obtain ⟨rfl, htail⟩ := List.cons.inj hall
    obtain ⟨phrase, e, last, rfl, hlast, hphrase⟩ := h.of_print hk
    have hsplit : body ++ [semicolon] = phrase ++ last :: us :=
      Eq.trans htail (List.append_cons phrase last us).symm
    -- The semicolon of the statement can only be the one at the end.
    obtain ⟨more, rfl, hmore⟩ | ⟨more, rfl, hmore⟩ := List.append_eq_append_iff.1 hsplit
    · cases more with
      | nil => exact ⟨e, by rwa [List.append_nil] at hphrase⟩
      | cons t more =>
        obtain ⟨-, hnil⟩ := List.cons.inj hmore
        exact absurd hnil (by simp)
    · cases more with
      | nil => exact ⟨e, by rwa [List.append_nil]⟩
      | cons t more =>
        obtain ⟨rfl, -⟩ := List.cons.inj hmore
        exact absurd hlast (hbody _ (by simp))

end Grammar

/-! ### Reading -/

namespace Reading

variable {source : String} {body : List Token} {e : Expr}

/-- Every phrase before the end of the source is read as an expression. -/
theorem expressionOfTokens_of_phrase {eof : Token} (he : eof.kind = .endOfSource)
    (h : Phrase .expression body e) (firstId : NodeId) :
    ∃ read, (expressionOfTokens (body ++ [eof]) firstId).result = .ok read ∧
      read.Alike .upToNodes e := by
  have hdepth : 16 * body.length ≤ Cursor.depthFor (body ++ [eof]) + 6 := by
    unfold Cursor.depthFor
    rw [List.length_append]
    omega
  have hstops : Stops (.operation .or) (Cursor.kindOf [eof]) := by
    rw [Cursor.kindOf_cons, he]
    exact ⟨by decide, by decide, by decide⟩
  have hequal : Cursor.kindOf [eof] ≠ .symbol .equal := by
    rw [Cursor.kindOf_cons, he]
    exact nofun
  obtain ⟨read, j, hread, hlike⟩ := h.accepted _ [eof] hdepth hstops hequal firstId []
  have hend : Cursor.isAtEnd ⟨[eof], j, []⟩ = true := decide_eq_true he
  refine ⟨read, ?_, hlike⟩
  simp only [expressionOfTokens, hread, hend, if_true]
  rfl

/-- A text that is read as an expression has the tokens of one. -/
theorem finds_of_expressionOfSource {firstId : NodeId}
    (h : (expressionOfSource source firstId).result = .ok e) :
    ∃ body, Scan.Finds source body ∧ Phrase .expression body e := by
  obtain ⟨body, line, htokens, hfound⟩ := Scan.tokens_eq_append_end source
  simp only [expressionOfSource] at h
  split at h
  · next hempty =>
    obtain ⟨⟨ts, rest, hts, hrest, hphrase⟩, -⟩ := phrase_of_expressionOfTokens h
    rw [htokens] at hts
    obtain rfl : ts = body :=
      eq_of_append_end (fun t ht => (hfound t ht).ne_end) rfl hphrase.noEnd hrest hts
    exact ⟨ts, ⟨line, htokens, List.isEmpty_iff.1 hempty⟩, hphrase⟩
  · cases h

/-- A text with the tokens of an expression is read as one, whatever number comes first. -/
theorem expressionOfSource_of_finds (h : Scan.Finds source body) (hphrase : Phrase .expression body e)
    (firstId : NodeId) :
    ∃ read, (expressionOfSource source firstId).result = .ok read ∧ read.Alike .upToNodes e := by
  obtain ⟨line, htokens, hfaults⟩ := h
  have heof : (Token.atEnd line).kind = .endOfSource := rfl
  obtain ⟨read, hread, hlike⟩ := expressionOfTokens_of_phrase heof hphrase firstId
  refine ⟨read, ?_, hlike⟩
  simp only [expressionOfSource, hfaults, htokens]
  exact hread

end Reading

end Lox
