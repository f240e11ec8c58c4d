import Mathlib
import SymCalc.Proofs.ContractOfStatements
import SymCalc.Proofs.MatrixSkipping

/-!
# Recovery from a bad matrix

A reader takes whole statements: declarations with all their words, and brackets that are balanced
outside of them. So a matrix that is given up has taken balanced tokens, or else an opening bracket
after them in place of a comma. The contract of this module traces an error of matrices to the
matrix that was given up. Main statement: reading goes on behind the bracket that closes the matrix,
unless the token found in place of a comma is an opening bracket; then it goes on behind the bracket
that closes that one, within the matrix.
-/

namespace SymCalc

open Cursor

namespace Cursor

/-- A reader has come from one place to another by taking some tokens. -/
structure Takes (c : Cursor) (taken : List Token) (d : Cursor) : Prop where
  /-- It knows where it stands. -/
  placed : d.Placed
  /-- The tokens taken and those to come are the ones there were. -/
  tokens : c.tokens = taken ++ d.tokens

variable {c d e : Cursor} {taken more : List Token}

/-- Nothing is taken at the start. -/
theorem Placed.takes (h : c.Placed) : c.Takes [] c := ⟨h, rfl⟩

/-- As many tokens fewer are to come as were taken. -/
theorem Takes.length (h : c.Takes taken d) :
    c.tokens.length = taken.length + d.tokens.length := by
  rw [h.tokens, List.length_append]

/-- What is taken in between is what there is more of. -/
theorem Takes.of_append (h : c.Takes taken d) (h' : c.Takes (taken ++ more) e) :
    d.Takes more e := by
  refine ⟨h'.placed, List.append_cancel_left (?_ : taken ++ _ = taken ++ _)⟩
  rw [← h.tokens, h'.tokens, List.append_assoc]

/-- A token is taken, unless it is the end. -/
theorem Takes.next (h : c.Takes taken d) (hkind : d.scanner.peek.1.kind ≠ .eof) (n : Nat) :
    c.Takes (taken ++ [d.scanner.peek.1]) ⟨d.scanner.next.2, n⟩ := by
  have htokens := h.placed.tokens_next n
  rw [Scanner.next_fst, if_neg hkind] at htokens
  refine ⟨(h.placed.next_placed n).1, ?_⟩
  rw [h.tokens, htokens, List.append_assoc, List.singleton_append]

/-- A token is looked at. -/
theorem Takes.peek (h : c.Takes taken d) (n : Nat) : c.Takes taken ⟨d.scanner.peek.2, n⟩ := by
  have hplaced := (h.placed.peek n).1.placed
  exact ⟨hplaced, h.tokens.trans
    (congrArg (taken ++ ·) (h.placed.tokens_eq hplaced d.scanner.next_peek.symm))⟩

/-- The end of the line is looked for. -/
theorem Takes.atEndOfLine (h : c.Takes taken d) (n : Nat) :
    c.Takes taken ⟨d.scanner.atEndOfLine.2, n⟩ := by
  have hplaced := (h.placed.atEndOfLine n).placed
  have hsame := h.placed.tokens_eq hplaced
    (Scanner.next_atEndOfLine (Source.lined_of_feed_none h.placed.feed)).symm
  exact ⟨hplaced, h.tokens.trans (congrArg (taken ++ ·) hsame)⟩

end Cursor

/-- A matrix that starts among the tokens to come. -/
structure Literal (c : Cursor) where
  /-- The tokens before it. -/
  before : List Token
  /-- Its opening bracket. -/
  bracket : Token
  /-- The reader behind its opening bracket. -/
  inside : Cursor
  /-- The bracket is one. -/
  opens : bracket.isPunct "[" = true
  /-- It stands among the tokens to come. -/
  takes : c.Takes (before ++ [bracket]) inside

section Tracing

variable {M : Type} [Numeric M] {c d : Cursor}

variable (M) in
/-- A matrix is given up with an error of its own: reading its rows comes to a fault where some
tokens of it are taken, and fails elsewhere when the rest of it is skipped. -/
structure Literal.GivenUp (l : Literal c) (err : SyntaxError) (taken : List Token)
    (stop d : Cursor) : Prop where
  /-- The fault is come to, and reading fails with it, when statements may nest so deep as there are
  tokens. -/
  raised : ∃ depth token, l.inside.tokens.length ≤ depth ∧
    Parse.rowsVerdict (Parse.statementWithin (M := M) depth) (depth + 1) l.bracket (depth + 1) []
      l.inside = .ok (.error (token, err.fault)) stop ∧
    Parse.rowsWithin (Parse.statementWithin (M := M) depth) (depth + 1) l.bracket (depth + 1) []
      l.inside = .error err d
  /-- The tokens taken before. -/
  takes : l.inside.Takes taken stop

variable (M) in
/-- An error is not one of matrices, or else from a matrix given up. -/
def Traceable (c : Cursor) (err : SyntaxError) (d : Cursor) : Prop :=
  err.fault.ofMatrix = true → ∃ (l : Literal c) (taken : List Token) (stop : Cursor),
    l.GivenUp M err taken stop d

/-- An error that is not one of matrices. -/
theorem traceable_of_ofMatrix {err : SyntaxError} (h : err.fault.ofMatrix = false) :
    Traceable M c err d := by
  intro hyes
  cases h.symm.trans hyes

omit [Numeric M] in
/-- At a fault the rest of the matrix is skipped. -/
theorem rowsWithin_of_fault {S : Bool → Parse (Expr M)} {size rounds : Nat}
    {bracket token : Token} {fault : SyntaxFault} {read : List (List (Expr M))} {stop : Cursor}
    (h : Parse.rowsVerdict S size bracket rounds read c = .ok (.error (token, fault)) stop) :
    let d := Parse.skipMatrixWithin stop.scanner.size 1 stop
    Parse.rowsWithin S size bracket rounds read c =
      .error ⟨d.scanner.name, token.pos, fault⟩ d := by
  rw [Parse.rowsWithin, Parse.bind_of_ok h]
  rfl

/-- Tracing errors of matrices is lawful. -/
theorem tracing_lawful (c : Cursor) : Contract.SingleLawful M (c.tokens.length - 1)
    (fun _ taken => c.Takes taken) (Traceable M c) where
  mayFail _ _ hfault := traceable_of_ofMatrix hfault
  fails_next _ hfault := traceable_of_ofMatrix hfault
  next h hkind := h.next hkind _
  fails_peek _ hfault := traceable_of_ofMatrix hfault
  peek h := h.peek _
  atEndOfLine h := h.atEndOfLine _
  look {_ d} h _ := (h.atEndOfLine d.consumed).peek _
  giveUp {taken token fault d d'} h := by
    obtain ⟨before, bracket, rest, depth, inside, _, rfl, hopens, hinside, hdepth, hrun⟩ := h.matrix
    have hbehind : inside.Takes rest d := hinside.of_append h.stands
    have hlength := hinside.length
    have hless : c.tokens.length - 1 < (before ++ [bracket]).length + depth := hdepth
    have henough : inside.tokens.length ≤ depth := by omega
    intro _
    exact ⟨⟨before, bracket, inside, hopens, hinside⟩, rest, d,
      ⟨depth, token, henough, hrun, rowsWithin_of_fault hrun⟩, hbehind⟩

section GivenUp

variable {l : Literal c} {err : SyntaxError} {taken rest : List Token} {stop : Cursor}

/-- What has been taken of a matrix when reading its rows comes to a fault. -/
theorem Literal.takes_of_fault (l : Literal c) {depth : Nat} {token : Token} {fault : SyntaxFault}
    (hdepth : l.inside.tokens.length ≤ depth)
    (hrun : Parse.rowsVerdict (Parse.statementWithin (M := M) depth) (depth + 1) l.bracket
      (depth + 1) [] l.inside = .ok (.error (token, fault)) stop) :
    ∃ taken, l.inside.Takes taken stop ∧ Complaint fault taken := by
  have hlength := l.takes.length
  have hbefore : 0 < (l.before ++ [l.bracket]).length := by simp
  have hless : c.tokens.length - 1 < (l.before ++ [l.bracket]).length + depth := by omega
  obtain ⟨more, hmore, hat⟩ := (tracing_lawful c).complaint l.takes hless hrun
  exact ⟨more, l.takes.of_append hat, hmore⟩

/-- What has been taken of a matrix that is given up. -/
theorem Literal.GivenUp.complaint (h : l.GivenUp M err taken stop d) :
    Complaint err.fault taken := by
  obtain ⟨depth, token, hdepth, hrun, -⟩ := h.raised
  obtain ⟨taken', htakes, hcomplaint⟩ := l.takes_of_fault hdepth hrun
  rwa [List.append_cancel_right (h.takes.tokens.symm.trans htakes.tokens)]

/-- A matrix given up is skipped through the bracket that closes what was not read of it. -/
theorem Literal.GivenUp.tokens_eq (h : l.GivenUp M err taken stop d)
    (hclean : ∀ t ∈ c.tokens, t.kind ≠ .error) (hrest : Closes stop.tokens rest) :
    d.tokens = rest := by
  obtain ⟨depth, token, -, hrun, hfails⟩ := h.raised
  rw [rowsWithin_of_fault hrun] at hfails
  obtain ⟨-, rfl⟩ := EStateM.Result.error.inj hfails
  have hfrom : ClosesFrom ((0 : Nat) : Int) stop.tokens rest := hrest
  refine tokens_skipMatrixWithin h.takes.placed (fun t ht => hclean t ?_) stop.length_tokens_le
    hfrom
  rw [l.takes.tokens, h.takes.tokens]
  simp [ht]

/-- Without an opening bracket in place of a comma, the matrix is skipped through its own closing
bracket. -/
theorem Literal.GivenUp.tokens_of_not_opensBracket (h : l.GivenUp M err taken stop d)
    (hclean : ∀ t ∈ c.tokens, t.kind ≠ .error) (hrest : Closes l.inside.tokens rest)
    (hwords : Balanced (declaredWords taken)) (hno : err.fault.opensBracket = false) :
    d.tokens = rest := by
  rw [h.takes.tokens] at hrest
  have htaken : Balanced taken := balanced_of_plain (h.complaint.balanced hno) hwords
  exact h.tokens_eq hclean (hrest.of_append htaken)

/-- With one, reading goes on within the matrix. -/
theorem Literal.GivenUp.tokens_of_opensBracket (h : l.GivenUp M err taken stop d)
    (hclean : ∀ t ∈ c.tokens, t.kind ≠ .error) (hrest : Closes l.inside.tokens rest)
    (hwords : Balanced (declaredWords taken)) (hyes : err.fault.opensBracket = true) :
    ∃ more close, close.isPunct "]" = true ∧ d.tokens = more ++ close :: rest := by
  obtain ⟨read, bracket, rfl, hread, hbracket⟩ := h.complaint.opening hyes
  -- The bracket is no word of a declaration, since those before it are whole.
  have hsame : declaredWords (read ++ [bracket]) = declaredWords read := by
    rw [declaredWords, wordsFrom_append, hread.complete, wordsFrom, wordsAfter_punct hbracket,
      wordsFrom, List.append_nil]
  rw [hsame] at hwords
  rw [h.takes.tokens, List.append_assoc] at hrest
  have hlater := hrest.of_append (balanced_of_plain hread.balanced hwords)
  obtain ⟨more, close, hclose, hstops⟩ := Closes.exists_before hlater hbracket
  exact ⟨more, close, hclose, h.tokens_eq hclean hstops⟩

end GivenUp

/-- A bad matrix is skipped through a closing bracket. In a text without lexical errors, a
matrix that is given up is skipped through the bracket that closes what was not read of it. This is
the bracket that closes the matrix, unless an opening bracket was taken in place of a comma: then
the rest of the matrix is still to come. Words of declarations count as brackets here as well, so
those that were taken must be balanced. Whenever a statement fails with an error of matrices, a
matrix in it has been given up, and reading stands where that has left it. -/
theorem bad_matrix_skipped (hc : c.Placed) (hclean : ∀ t ∈ c.tokens, t.kind ≠ .error) :
    (∀ (l : Literal c) (err : SyntaxError) (taken : List Token) (stop d : Cursor),
      l.GivenUp M err taken stop d →
        (∀ rest, Closes stop.tokens rest → d.tokens = rest) ∧
        ∀ rest, Closes l.inside.tokens rest → Balanced (declaredWords taken) →
          (err.fault.opensBracket = false → d.tokens = rest) ∧
          (err.fault.opensBracket = true →
            ∃ more close, close.isPunct "]" = true ∧ d.tokens = more ++ close :: rest)) ∧
    ∀ (err : SyntaxError) (d : Cursor),
      (c.parse : EStateM.Result SyntaxError Cursor (Expr M)) = .error err d →
        err.fault.ofMatrix = true →
        ∃ (l : Literal c) (taken : List Token) (stop : Cursor), l.GivenUp M err taken stop d := by
  refine ⟨fun l err taken stop d hl => ⟨fun rest => hl.tokens_eq hclean, ?_⟩, ?_⟩
  · intro rest hrest hwords
    exact ⟨hl.tokens_of_not_opensBracket hclean hrest hwords,
      hl.tokens_of_opensBracket hclean hrest hwords⟩
  · intro err d h hfault
    have hlength := c.length_tokens_le
    have hsize : c.tokens.length - 1 < c.scanner.size := by
      have hpos : 0 < c.scanner.size := Nat.succ_pos _
      omega
    have htraced := (tracing_lawful c).statementWithin (M := M) hsize false hc.takes
    rw [Cursor.parse] at h
    rw [h] at htraced
    exact htraced hfault

end Tracing

/-- In a matrix of two rows, an opening bracket in place of a comma has the second row read as a
statement. -/
theorem nested_bracket_ends_skip :
    let c := Cursor.start {} "" (.ofText "[1 [2]\n3]")
    ∃ err d, (c.parse : EStateM.Result SyntaxError Cursor (Expr ℚ)) = .error err d ∧
      ∃ (l : Literal c) (taken rest : List Token) (stop : Cursor),
        l.GivenUp ℚ err taken stop d ∧ Closes l.inside.tokens rest ∧
        Balanced (declaredWords taken) ∧
        (∃ more close, close.isPunct "]" = true ∧ d.tokens = more ++ close :: rest) ∧
        d.tokens.map Token.text = ["3", "]", "EOF"] := by
  intro c
  have hc : c.Placed := placed_start {} "" "[1 [2]\n3]"
  let inside : Cursor := ⟨c.scanner.next.2, c.consumed + 1⟩
  have hinside : inside.Placed := (hc.next_placed (c.consumed + 1)).1
  let bracket : Token := c.scanner.next.1
  let l : Literal c := ⟨[], bracket, inside, by decide +kernel, hinside, by decide +kernel⟩
  have hbound : inside.tokens.length ≤ 8 := by decide +kernel
  have hclean : ∀ t ∈ c.tokens, t.kind ≠ .error := by decide +kernel
  -- Everything that is asked of the two runs is computed.
  have hruns : (match (c.parse : EStateM.Result SyntaxError Cursor (Expr ℚ)),
      Parse.rowsVerdict (Parse.statementWithin (M := ℚ) 8) 9 bracket 9 [] inside,
      Parse.rowsWithin (Parse.statementWithin (M := ℚ) 8) 9 bracket 9 [] inside with
      | .error err d, .ok (.error (_, fault)) stop, .error err' d' =>
        decide (err' = err ∧ d' = d ∧ fault = err.fault ∧ err.fault.opensBracket = true ∧
          inside.tokens = inside.tokens.take 2 ++ stop.tokens ∧
          d.tokens.map Token.text = ["3", "]", "EOF"])
      | _, _, _ => false) = true := by
    decide +kernel
  split at hruns
  · rename_i err d token fault stop err' d' hparse hverdict hrows
    obtain ⟨rfl, rfl, rfl, hopens, htokens, htexts⟩ := of_decide_eq_true hruns
    obtain ⟨_, hstop, -⟩ := l.takes_of_fault hbound hverdict
    have hl : l.GivenUp ℚ err' (inside.tokens.take 2) stop d' :=
      ⟨⟨8, token, hbound, hverdict, hrows⟩, hstop.placed, htokens⟩
    have hcloses : Closes inside.tokens (inside.tokens.drop 6) :=
      ⟨inside.tokens.take 5, ⟨.punctuation, "]", ⟨2, 2⟩⟩, by decide +kernel, by decide +kernel,
        by decide +kernel⟩
    have hwords : Balanced (declaredWords (inside.tokens.take 2)) := by decide +kernel
    have hskipped := (bad_matrix_skipped (M := ℚ) hc hclean).1 l err' _ stop d' hl
    exact ⟨err', d', hparse, l, _, _, stop, hl, hcloses, hwords,
      (hskipped.2 _ hcloses hwords).2 hopens, htexts⟩
  · cases hruns

end SymCalc
