import OsWork.Ports.Grep
import Mathlib.Computability.Language

/-!
# The patterns of `grep.c`

What a pattern means, as a language, and that `match` finds it.  A pattern is read from the
left: a character with a '*' behind it is a repetition, a '$' with nothing behind it is the
end of the text, and every other character is one character of the text.  `matchhere` makes
its tests in the same order, so a '*' that comes first, and a '^' or a '$' in the middle,
are characters like others.

## Main results

* `matchstar_iff` — the loop for a repetition.
* `matchhere_iff` — the pattern at the start of a text.
* `match_iff` — the pattern anywhere in a text.
-/

namespace OsWork.Ports.Grep

open scoped Computability

/-! ## The meaning of a pattern -/

/-- A part of a pattern. -/
inductive Piece
  | one (c : UInt8)
  | many (c : UInt8)

/-- The character `t` of a text is what the character `c` of a pattern stands for. -/
def Stands (c t : UInt8) : Prop := c = dot ∨ c = t

def letter (c : UInt8) : Language UInt8 := {x | ∃ t, Stands c t ∧ x = [t]}

def Piece.language : Piece → Language UInt8
  | .one c => letter c
  | .many c => (letter c)∗

/-- The parts of a pattern, up to a '$' at its end. -/
def pieces : List UInt8 → List Piece
  | [] => []
  | [c] => if c = dollar then [] else [.one c]
  | c :: d :: re => if d = star then .many c :: pieces re else .one c :: pieces (d :: re)

/-- The pattern ends with a '$'. -/
def endsText : List UInt8 → Bool
  | [] => false
  | [c] => c == dollar
  | _ :: d :: re => if d = star then endsText re else endsText (d :: re)

/-- What the parts stand for, one behind the other. -/
def meaning (re : List UInt8) : Language UInt8 := ((pieces re).map Piece.language).prod

/-- The pattern without the '^' at its start. -/
def unanchored (re : List UInt8) : List UInt8 := if re.head? = some caret then re.tail else re

/-! ## Repetitions -/

theorem mem_letter {c t : UInt8} : [t] ∈ letter c ↔ Stands c t := by
  constructor
  · rintro ⟨u, hu, heq⟩
    rw [(List.cons.inj heq).1]
    exact hu
  · intro h
    exact ⟨t, h, rfl⟩

theorem mem_kstar_letter {c : UInt8} {x : List UInt8} :
    x ∈ (letter c)∗ ↔ ∀ t ∈ x, Stands c t := by
  rw [Language.mem_kstar]
  constructor
  · rintro ⟨L, rfl, hall⟩ t ht
    obtain ⟨y, hy, hty⟩ := List.mem_flatten.mp ht
    obtain ⟨u, hu, rfl⟩ := hall y hy
    rw [List.mem_singleton.mp hty]
    exact hu
  · intro hall
    refine ⟨x.map fun t => [t], ?_, ?_⟩
    · rw [← List.flatMap_def, List.flatMap_singleton']
    · intro y hy
      obtain ⟨t, ht, rfl⟩ := List.mem_map.mp hy
      exact ⟨t, hall t ht, rfl⟩

theorem stands_iff {c t : UInt8} : (t == c || c == dot) = true ↔ Stands c t := by
  unfold Stands
  rw [Bool.or_eq_true, beq_iff_eq, beq_iff_eq, or_comm, eq_comm (a := t)]

/-- The loop tries the rest of the pattern behind each number of repetitions. -/
theorem matchstar_iff (here : List UInt8 → Bool) (c : UInt8) (text : List UInt8) :
    matchstar here c text = true ↔
      ∃ x post, text = x ++ post ∧ x ∈ (letter c)∗ ∧ here post = true := by
  induction text with
  | nil =>
      constructor
      · intro h
        exact ⟨[], [], rfl, Language.nil_mem_kstar _, h⟩
      · rintro ⟨x, post, htext, -, h⟩
        rw [(List.append_eq_nil_iff.mp htext.symm).2] at h
        exact h
  | cons t text ih =>
      rw [matchstar, Bool.or_eq_true, Bool.and_eq_true, stands_iff, ih]
      constructor
      · rintro (h | ⟨ht, x, post, rfl, hx, h⟩)
        · exact ⟨[], t :: text, rfl, Language.nil_mem_kstar _, h⟩
        · refine ⟨t :: x, post, rfl, ?_, h⟩
          rw [mem_kstar_letter] at hx ⊢
          exact List.forall_mem_cons.mpr ⟨ht, hx⟩
      · rintro ⟨x, post, htext, hx, h⟩
        cases x with
        | nil =>
            left
            rw [htext]
            exact h
        | cons u x =>
            right
            obtain ⟨rfl, rfl⟩ := List.cons.inj htext
            rw [mem_kstar_letter, List.forall_mem_cons] at hx
            exact ⟨hx.1, x, post, rfl, mem_kstar_letter.mpr hx.2, h⟩

/-! ## The pattern at the start of a text -/

/-- The text starts with what the pattern stands for. -/
def Starts (re text : List UInt8) : Prop :=
  ∃ x post, text = x ++ post ∧ x ∈ meaning re ∧ (endsText re = true → post = [])

theorem meaning_many (c : UInt8) (re : List UInt8) :
    meaning (c :: star :: re) = (letter c)∗ * meaning re := by
  unfold meaning
  rw [pieces, if_pos rfl, List.map_cons, List.prod_cons]
  rfl

theorem meaning_one {c d : UInt8} (hd : d ≠ star) (re : List UInt8) :
    meaning (c :: d :: re) = letter c * meaning (d :: re) := by
  unfold meaning
  rw [pieces, if_neg hd, List.map_cons, List.prod_cons]
  rfl

theorem starts_many (c : UInt8) (re text : List UInt8) :
    Starts (c :: star :: re) text ↔
      ∃ x post, text = x ++ post ∧ x ∈ (letter c)∗ ∧ Starts re post := by
  have hends : endsText (c :: star :: re) = endsText re := by
    rw [endsText, if_pos rfl]
  unfold Starts
  rw [meaning_many, hends]
  constructor
  · rintro ⟨x, post, rfl, hx, hpost⟩
    obtain ⟨y, hy, z, hz, rfl⟩ := Language.mem_mul.mp hx
    exact ⟨y, z ++ post, List.append_assoc y z post, hy, z, post, rfl, hz, hpost⟩
  · rintro ⟨y, _, rfl, hy, z, post, rfl, hz, hpost⟩
    exact ⟨y ++ z, post, (List.append_assoc y z post).symm, Language.append_mem_mul hy hz, hpost⟩

theorem starts_one {c d : UInt8} (hd : d ≠ star) (re text : List UInt8) :
    Starts (c :: d :: re) text ↔
      ∃ t post, text = t :: post ∧ Stands c t ∧ Starts (d :: re) post := by
  have hends : endsText (c :: d :: re) = endsText (d :: re) := by
    rw [endsText, if_neg hd]
  unfold Starts
  rw [meaning_one hd, hends]
  constructor
  · rintro ⟨x, post, rfl, hx, hpost⟩
    obtain ⟨_, ⟨t, ht, rfl⟩, z, hz, rfl⟩ := Language.mem_mul.mp hx
    exact ⟨t, z ++ post, rfl, ht, z, post, rfl, hz, hpost⟩
  · rintro ⟨t, _, rfl, ht, z, post, rfl, hz, hpost⟩
    exact ⟨t :: z, post, rfl, Language.append_mem_mul (mem_letter.mpr ht) hz, hpost⟩

theorem starts_nil (text : List UInt8) : Starts [] text :=
  ⟨[], text, rfl, Language.nil_mem_one, fun h => Bool.noConfusion h⟩

theorem starts_dollar (text : List UInt8) : Starts [dollar] text ↔ text = [] := by
  constructor
  · rintro ⟨x, post, rfl, hx, hpost⟩
    rw [hpost rfl, List.append_nil]
    exact hx
  · rintro rfl
    exact ⟨[], [], rfl, Language.nil_mem_one, fun _ => rfl⟩

theorem starts_single {c : UInt8} (hc : c ≠ dollar) (text : List UInt8) :
    Starts [c] text ↔ ∃ t post, text = t :: post ∧ Stands c t := by
  have hmeaning : meaning [c] = letter c := by
    unfold meaning
    rw [pieces, if_neg hc, List.map_singleton, List.prod_singleton]
    rfl
  have hends : endsText [c] = false := beq_false_of_ne hc
  unfold Starts
  rw [hmeaning, hends]
  constructor
  · rintro ⟨_, post, rfl, ⟨t, ht, rfl⟩, -⟩
    exact ⟨t, post, rfl, ht⟩
  · rintro ⟨t, post, rfl, ht⟩
    exact ⟨[t], post, rfl, mem_letter.mpr ht, fun h => Bool.noConfusion h⟩

theorem stands_iff' {c t : UInt8} : (c == dot || c == t) = true ↔ Stands c t := by
  rw [Bool.or_eq_true, beq_iff_eq, beq_iff_eq, Stands]

/-- A character that is not a '$' at the end of the text is one character of the text. -/
theorem matchhere_single {c : UInt8} (hc : c ≠ dollar) (text : List UInt8) :
    matchhere [c] text = true ↔ ∃ t post, text = t :: post ∧ Stands c t := by
  cases text with
  | nil =>
      show (if c = dollar then true else false) = true ↔ _
      rw [if_neg hc]
      exact iff_of_false Bool.false_ne_true fun ⟨_, _, h, _⟩ => List.cons_ne_nil _ _ h.symm
  | cons t text =>
      show (if c = dollar then false else c == dot || c == t) = true ↔ _
      rw [if_neg hc, stands_iff']
      constructor
      · intro ht
        exact ⟨t, text, rfl, ht⟩
      · rintro ⟨_, _, heq, ht⟩
        rw [(List.cons.inj heq).1]
        exact ht

theorem matchhere_one {c d : UInt8} (hd : d ≠ star) (re text : List UInt8) :
    matchhere (c :: d :: re) text = true ↔
      ∃ t post, text = t :: post ∧ Stands c t ∧ matchhere (d :: re) post = true := by
  cases text with
  | nil =>
      show (if d = star then matchstar (matchhere re) c [] else false) = true ↔ _
      rw [if_neg hd]
      exact iff_of_false Bool.false_ne_true fun ⟨_, _, h, _⟩ => List.cons_ne_nil _ _ h.symm
  | cons t text =>
      show (if d = star then matchstar (matchhere re) c (t :: text)
        else (c == dot || c == t) && matchhere (d :: re) text) = true ↔ _
      rw [if_neg hd, Bool.and_eq_true, stands_iff']
      constructor
      · rintro ⟨ht, h⟩
        exact ⟨t, text, rfl, ht, h⟩
      · rintro ⟨_, _, heq, ht, h⟩
        obtain ⟨rfl, rfl⟩ := List.cons.inj heq
        exact ⟨ht, h⟩

theorem matchhere_many (c : UInt8) (re text : List UInt8) :
    matchhere (c :: star :: re) text = matchstar (matchhere re) c text := by
  cases text with
  | nil => rfl
  | cons t text => rfl

/-- `matchhere` makes its tests in the order in which a pattern is read. -/
theorem matchhere_iff (re text : List UInt8) : matchhere re text = true ↔ Starts re text := by
  induction re using pieces.induct generalizing text with
  | case1 =>
      apply iff_of_true _ (starts_nil text)
      cases text with
      | nil => rfl
      | cons t text => rfl
  | case2 =>
      rw [starts_dollar]
      show text.isEmpty = true ↔ _
      exact List.isEmpty_iff
  | case3 c hc => rw [starts_single hc, matchhere_single hc]
  | case4 c re ih =>
      rw [starts_many, matchhere_many, matchstar_iff]
      simp only [ih]
  | case5 c d re hd ih =>
      rw [starts_one hd, matchhere_one hd]
      simp only [ih]

/-! ## The pattern anywhere in a text -/

theorem matchAt_iff (re text : List UInt8) :
    matchAt re text = true ↔ ∃ pre post, text = pre ++ post ∧ matchhere re post = true := by
  induction text with
  | nil =>
      constructor
      · intro h
        exact ⟨[], [], rfl, h⟩
      · rintro ⟨pre, post, htext, h⟩
        rw [(List.append_eq_nil_iff.mp htext.symm).2] at h
        exact h
  | cons t text ih =>
      rw [matchAt, Bool.or_eq_true, ih]
      constructor
      · rintro (h | ⟨pre, post, rfl, h⟩)
        · exact ⟨[], t :: text, rfl, h⟩
        · exact ⟨t :: pre, post, rfl, h⟩
      · rintro ⟨pre, post, htext, h⟩
        cases pre with
        | nil =>
            left
            rw [htext]
            exact h
        | cons u pre =>
            right
            obtain ⟨rfl, rfl⟩ := List.cons.inj htext
            exact ⟨pre, post, rfl, h⟩

/-- A pattern with a '^' is looked for at the start of the text, and every other pattern at
each place. -/
theorem matchRe_caret (re text : List UInt8) :
    matchRe (caret :: re) text = matchhere re text := by
  show (if caret = caret then matchhere re text else matchAt (caret :: re) text) = _
  rw [if_pos rfl]

theorem matchRe_of_ne {re : List UInt8} (hcaret : re.head? ≠ some caret) (text : List UInt8) :
    matchRe re text = matchAt re text := by
  cases re with
  | nil => rfl
  | cons r re => exact if_neg fun hr => hcaret (congrArg some hr)

/-- `match` returns 1 exactly when a part of the text is what the pattern stands for: a part
at the start for a pattern with a '^', and one at the end for a pattern with a '$'. -/
theorem match_iff (re text : List UInt8) :
    matchRe re text = true ↔
      ∃ pre x post, text = pre ++ x ++ post ∧ x ∈ meaning (unanchored re) ∧
        (re.head? = some caret → pre = []) ∧
        (endsText (unanchored re) = true → post = []) := by
  by_cases hcaret : re.head? = some caret
  · obtain ⟨re', rfl⟩ := List.head?_eq_some_iff.mp hcaret
    have hrest : unanchored (caret :: re') = re' := if_pos rfl
    rw [matchRe_caret, matchhere_iff, hrest]
    constructor
    · rintro ⟨x, post, rfl, hx, hpost⟩
      exact ⟨[], x, post, rfl, hx, fun _ => rfl, hpost⟩
    · rintro ⟨pre, x, post, rfl, hx, hpre, hpost⟩
      rw [hpre hcaret]
      exact ⟨x, post, rfl, hx, hpost⟩
  · have hrest : unanchored re = re := if_neg hcaret
    rw [matchRe_of_ne hcaret, matchAt_iff, hrest]
    simp only [matchhere_iff]
    constructor
    · rintro ⟨pre, _, rfl, x, post, rfl, hx, hpost⟩
      exact ⟨pre, x, post, (List.append_assoc pre x post).symm, hx, fun h => absurd h hcaret,
        hpost⟩
    · rintro ⟨pre, x, post, rfl, hx, -, hpost⟩
      exact ⟨pre, x ++ post, List.append_assoc pre x post, x, post, rfl, hx, hpost⟩

end OsWork.Ports.Grep
