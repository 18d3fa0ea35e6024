import OsWork.Verified.CStrings
import OsWork.Verified.Lines

/-!
# `grep.c`

`grep` reads into a buffer of 1024 bytes behind what is left there of a line that has not
ended, prints the lines that have ended and match, and moves the rest to the front.  When
a read has brought no newline the rest starts at the front already; the test for that,
`p == buf`, makes the buffer empty instead of leaving it as it is.

## Main results

* `grep_out` — the output as a function of what the reads have returned.
* `grep_prints_iff` — the reads with which every pattern gets its lines.
-/

namespace OsWork.Ports.Grep

open OsWork.Verified.ByteWords OsWork.Verified.CStrings OsWork.Verified.Lines

/-! ## The source -/

def newline : UInt8 := 10

def caret : UInt8 := 94

def dollar : UInt8 := 36

def dot : UInt8 := 46

def star : UInt8 := 42

/-- `sizeof(buf)` -/
def BUFSIZE : Nat := 1024

/-- `matchstar(c, re, text)`, where `here` is `matchhere(re, ·)`. -/
def matchstar (here : List UInt8 → Bool) (c : UInt8) : List UInt8 → Bool
  | [] => here []
  | t :: text => here (t :: text) || (t == c || c == dot) && matchstar here c text

/-- `matchhere(re, text)` -/
def matchhere : List UInt8 → List UInt8 → Bool
  | [], _ => true
  | [r], text =>
      if r = dollar then text.isEmpty
      else match text with
        | [] => false
        | t :: _ => r == dot || r == t
  | r :: s :: re, text =>
      if s = star then matchstar (matchhere re) r text
      else match text with
        | [] => false
        | t :: text => (r == dot || r == t) && matchhere (s :: re) text

/-- `matchhere` is tried at every place of the text, also at its end. -/
def matchAt (re : List UInt8) : List UInt8 → Bool
  | [] => matchhere re []
  | t :: text => matchhere re (t :: text) || matchAt re text

/-- `match(re, text)` -/
def matchRe (re text : List UInt8) : Bool :=
  match re with
  | [] => matchAt [] text
  | r :: re => if r = caret then matchhere re text else matchAt (r :: re) text

/-- `buf` and `m`, and what has been written to the standard output. -/
structure State where
  buf : Bytes
  m : Nat
  out : List UInt8

/-- `while((q = strchr(p, '\n')) != 0)`: the buffer, `p` and the output behind the loop. -/
def printLines (pattern : List UInt8) : Nat → Bytes → Nat → List UInt8 → Bytes × Nat × List UInt8
  | 0, buf, p, out => (buf, p, out)
  | n + 1, buf, p, out =>
      match strchr buf newline (BUFSIZE - p) p with
      | none => (buf, p, out)
      | some q =>
          let ended := Function.update buf q 0
          if matchRe pattern (cstr ended (BUFSIZE - p) p) then
            let restored := Function.update ended q newline
            printLines pattern n restored (q + 1) (out ++ slice restored p (q + 1))
          else printLines pattern n ended (q + 1) out

/-- One round of the outer loop, for what `read` has returned. -/
def State.round (pattern : List UInt8) (s : State) (data : List UInt8) : State :=
  let m := s.m + data.length
  let buf := Function.update (copy s.buf s.m (bytesOf data) data.length) m 0
  let (buf, p, out) := printLines pattern BUFSIZE buf 0 s.out
  let m := if p = 0 then 0 else m
  if 0 < m then { buf := memmove (m - p) buf 0 p, m := m - p, out := out }
  else { buf := buf, m := m, out := out }

/-- The loop of `grep`, for the results of its calls of `read`; then comes the end of the
file. -/
def State.grep (pattern : List UInt8) (s : State) : List (List UInt8) → State
  | [] => s
  | data :: results => if 0 < data.length then (s.round pattern data).grep pattern results else s

/-- `grep(pattern, fd)` finds the buffer as it is. -/
def start (buf : Bytes) : State := { buf := buf, m := 0, out := [] }

/-- Each `read` returns some bytes, at most `sizeof(buf)-m-1`. -/
def State.Reads (pattern : List UInt8) (s : State) : List (List UInt8) → Prop
  | [] => True
  | data :: results =>
      (0 < data.length ∧ data.length ≤ BUFSIZE - s.m - 1) ∧
        (s.round pattern data).Reads pattern results

/-! ## What should be printed -/

/-- The lines that a newline ends and that match. -/
def matchingLines (pattern input : List UInt8) : List UInt8 :=
  ((finished newline input).filter (matchRe pattern)).flatMap fun line => line ++ [newline]

/-- No result without a newline comes before a newline. -/
def NoneLost : List (List UInt8) → Prop
  | [] => True
  | data :: results => (newline ∈ results.flatten → newline ∈ data) ∧ NoneLost results

instance : ∀ results, Decidable (NoneLost results)
  | [] => isTrue trivial
  | data :: results =>
      have := instDecidableNoneLost results
      inferInstanceAs
        (Decidable ((newline ∈ results.flatten → newline ∈ data) ∧ NoneLost results))

theorem matchingLines_of_notMem {pattern l : List UInt8} (h : newline ∉ l) :
    matchingLines pattern l = [] := by
  rw [matchingLines, finished_of_notMem h]
  rfl

theorem matchingLines_append (pattern l l' : List UInt8) :
    matchingLines pattern (l ++ l') =
      matchingLines pattern l ++ matchingLines pattern (unfinished newline l ++ l') := by
  simp only [matchingLines, finished_append l l', List.filter_append, List.flatMap_append]

theorem matchingLines_line {pattern line : List UInt8} (h : newline ∉ line) (l : List UInt8) :
    matchingLines pattern (line ++ newline :: l) =
      (if matchRe pattern line then line ++ [newline] else []) ++ matchingLines pattern l := by
  rw [matchingLines, finished_cons h, List.filter_cons]
  split
  · rfl
  · rfl

/-- The empty pattern matches every line. -/
theorem matchingLines_nil_append (l : List UInt8) :
    matchingLines [] l ++ unfinished newline l = l := by
  induction l using lines_induction newline with
  | last l h => rw [matchingLines_of_notMem h, unfinished_of_notMem h, List.nil_append]
  | line l rest h ih =>
      have hmatch : matchRe [] l = true := by
        cases l with
        | nil => rfl
        | cons x l => rfl
      rw [matchingLines_line h, unfinished_cons h, if_pos hmatch, List.append_assoc, ih,
        List.append_assoc]
      rfl

theorem length_matchingLines_nil (l : List UInt8) :
    (matchingLines [] l).length + (unfinished newline l).length = l.length := by
  rw [← List.length_append, matchingLines_nil_append]

/-! ## One round -/

/-- The loop prints the lines that have ended and leaves `p` at the rest. -/
theorem printLines_spec (pattern : List UInt8) {l : List UInt8} : ∀ {n : Nat} {buf : Bytes} {p : Nat}
    (out : List UInt8), Holds buf p l → buf (p + l.length) = 0 → 0 ∉ l →
    p + l.length < BUFSIZE → l.length < n →
    ∃ buf' p', printLines pattern n buf p out = (buf', p', out ++ matchingLines pattern l) ∧
      p' + (unfinished newline l).length = p + l.length ∧
      Holds buf' p' (unfinished newline l) := by
  induction l using lines_induction newline with
  | last l h =>
      intro n buf p out hl hend _ _ hn
      obtain ⟨n, rfl⟩ := Nat.exists_eq_succ_of_ne_zero (Nat.ne_of_gt (Nat.zero_lt_of_lt hn))
      rw [printLines, strchr_none hl hend h, matchingLines_of_notMem h, unfinished_of_notMem h,
        List.append_nil]
      exact ⟨buf, p, rfl, rfl, hl⟩
  | line l rest h ih =>
      intro n buf p out hl hend hzero hroom hn
      obtain ⟨n, rfl⟩ := Nat.exists_eq_succ_of_ne_zero (Nat.ne_of_gt (Nat.zero_lt_of_lt hn))
      simp only [List.length_append, List.length_cons] at hend hroom hn
      have hline : Holds buf p l := hl.left
      have hrest : Holds buf (p + l.length + 1) rest := (holds_cons.mp hl.right).2
      have hzeros : 0 ∉ l ∧ 0 ∉ rest := by
        simp only [List.mem_append, List.mem_cons, not_or] at hzero
        exact ⟨hzero.1, hzero.2.2⟩
      have hq : strchr buf newline (BUFSIZE - p) p = some (p + l.length) := by
        refine strchr_of_holds (hline.append ?_) h hzeros.1 (by decide) (by omega)
        exact holds_cons.mpr ⟨(holds_cons.mp hl.right).1, .nil⟩
      have htext : cstr (Function.update buf (p + l.length) 0) (BUFSIZE - p) p = l :=
        cstr_of_holds (hline.update (.inr (Nat.le_refl _))) (Function.update_self _ _ _) hzeros.1
          (by omega)
      -- behind the line neither of the two writes at its end is seen
      have hbehind (x y : UInt8) :
          ∃ buf' p', printLines pattern n
              (Function.update (Function.update buf (p + l.length) x) (p + l.length) y)
              (p + l.length + 1) (out ++ (if matchRe pattern l then l ++ [newline] else [])) =
              (buf', p', out ++ matchingLines pattern (l ++ newline :: rest)) ∧
            p' + (unfinished newline (l ++ newline :: rest)).length =
              p + (l.length + (rest.length + 1)) ∧
            Holds buf' p' (unfinished newline (l ++ newline :: rest)) := by
        rw [matchingLines_line h, unfinished_cons h, ← List.append_assoc]
        have hend' : Function.update (Function.update buf (p + l.length) x) (p + l.length) y
            (p + l.length + 1 + rest.length) = 0 := by
          rw [Function.update_of_ne (by omega), Function.update_of_ne (by omega), ← hend]
          congr 1
          omega
        obtain ⟨buf', p', heq, hp', hholds⟩ :=
          ih (n := n) (out ++ (if matchRe pattern l then l ++ [newline] else []))
            ((hrest.update (.inl (by omega))).update (.inl (by omega))) hend' hzeros.2
            (by omega) (by omega)
        exact ⟨buf', p', heq, by omega, hholds⟩
      rw [List.length_append, List.length_cons, printLines]
      simp only [hq, htext]
      split
      next hmatch =>
        have hprinted : slice (Function.update (Function.update buf (p + l.length) 0)
            (p + l.length) newline) p (p + l.length + 1) = l ++ [newline] := by
          have hlen : p + l.length + 1 = p + (l ++ [newline]).length := by
            rw [List.length_append, List.length_singleton, Nat.add_assoc]
          rw [hlen]
          apply slice_of_holds
          apply ((hline.update (.inr (Nat.le_refl _))).update (.inr (Nat.le_refl _))).append
          exact holds_cons.mpr ⟨Function.update_self _ _ _, .nil⟩
        have hnext := hbehind 0 newline
        rw [if_pos hmatch] at hnext
        rw [hprinted]
        exact hnext
      next hmatch =>
        have hnext := hbehind 0 0
        rw [if_neg hmatch, Function.update_idem, List.append_nil] at hnext
        exact hnext

/-- The bytes of a line that has not ended are at the front of the buffer. -/
structure Carries (s : State) (l : List UInt8) : Prop where
  length : s.m = l.length
  holds : Holds s.buf 0 l
  unended : newline ∉ l
  nonzero : 0 ∉ l

theorem carries_start (buf : Bytes) : Carries (start buf) [] where
  length := rfl
  holds := .nil
  unended := List.not_mem_nil
  nonzero := List.not_mem_nil

/-- What is left of the line `l` and the data after a round. -/
def kept (l data : List UInt8) : List UInt8 :=
  if newline ∈ data then unfinished newline (l ++ data) else []

theorem Carries.round {s : State} {l data : List UInt8} (h : Carries s l) (pattern : List UInt8)
    (hzero : 0 ∉ data) (hroom : s.m + data.length < BUFSIZE) :
    (s.round pattern data).out = s.out ++ matchingLines pattern (l ++ data) ∧
      Carries (s.round pattern data) (kept l data) := by
  have hm := h.length
  have hzeros : 0 ∉ l ++ data := by
    rw [List.mem_append, not_or]
    exact ⟨h.nonzero, hzero⟩
  have hholds : Holds (Function.update (copy s.buf s.m (bytesOf data) data.length)
      (s.m + data.length) 0) 0 (l ++ data) := by
    apply Holds.update _ (.inr _)
    · apply (h.holds.copy_below (by omega)).append
      rw [Nat.zero_add, ← hm]
      exact holds_copy s.buf s.m data
    · rw [List.length_append]
      omega
  have hlen : (l ++ data).length = s.m + data.length := by rw [List.length_append, hm]
  obtain ⟨buf, p, heq, hp, hrest⟩ :=
    printLines_spec pattern (n := BUFSIZE) s.out hholds
      (by rw [Nat.zero_add, hlen, Function.update_self]) hzeros (by omega) (by omega)
  have hnonzero : 0 ∉ unfinished newline (l ++ data) :=
    fun hmem => hzeros ((unfinished_suffix _).subset hmem)
  unfold State.round
  simp only [heq]
  by_cases hdata : newline ∈ data
  · have hlt := length_unfinished_lt (List.mem_append_right l hdata)
    have hmoved : s.m + data.length - p = (unfinished newline (l ++ data)).length := by omega
    rw [if_neg (show p ≠ 0 by omega), if_pos (by omega), kept, if_pos hdata, hmoved]
    refine ⟨rfl, rfl, ?_, notMem_unfinished _, hnonzero⟩
    exact memmove_holds 0 p (Nat.zero_le p) hrest
  · have hnone : newline ∉ l ++ data := by
      rw [List.mem_append, not_or]
      exact ⟨h.unended, hdata⟩
    rw [unfinished_of_notMem hnone] at hp
    rw [if_pos (show p = 0 by omega), if_neg (Nat.lt_irrefl 0), kept, if_neg hdata]
    exact ⟨rfl, rfl, .nil, List.not_mem_nil, List.not_mem_nil⟩

/-! ## All rounds -/

/-- The output for the results of all reads, when `l` is carried to the first of them. -/
def printed (pattern : List UInt8) : List UInt8 → List (List UInt8) → List UInt8
  | _, [] => []
  | l, data :: results => matchingLines pattern (l ++ data) ++ printed pattern (kept l data) results

theorem Carries.grep {pattern : List UInt8} {results : List (List UInt8)} :
    ∀ {s : State} {l : List UInt8}, Carries s l → 0 ∉ results.flatten →
      s.Reads pattern results →
        (s.grep pattern results).out = s.out ++ printed pattern l results := by
  induction results with
  | nil =>
      intro s l _ _ _
      rw [State.grep, printed, List.append_nil]
  | cons data results ih =>
      intro s l h hzero hreads
      rw [List.flatten_cons, List.mem_append, not_or] at hzero
      obtain ⟨⟨hpos, hroom⟩, hreads⟩ := hreads
      obtain ⟨hout, hnext⟩ := h.round pattern hzero.1 (by omega)
      rw [State.grep, if_pos hpos, ih hnext hzero.2 hreads, hout, printed, List.append_assoc]

theorem grep_out {pattern : List UInt8} {results : List (List UInt8)} (buf : Bytes)
    (hzero : 0 ∉ results.flatten) (hreads : (start buf).Reads pattern results) :
    ((start buf).grep pattern results).out = printed pattern [] results :=
  (carries_start buf).grep hzero hreads

/-! ## Losses -/

theorem noneLost_of_notMem {results : List (List UInt8)} (h : newline ∉ results.flatten) :
    NoneLost results := by
  induction results with
  | nil => trivial
  | cons data results ih =>
      rw [List.flatten_cons, List.mem_append, not_or] at h
      exact ⟨fun hmem => absurd hmem h.2, ih h.2⟩

theorem printed_of_notMem {pattern : List UInt8} {results : List (List UInt8)} :
    ∀ {l : List UInt8}, newline ∉ l → newline ∉ results.flatten →
      printed pattern l results = [] := by
  induction results with
  | nil => exact fun _ _ => rfl
  | cons data results ih =>
      intro l hl h
      rw [List.flatten_cons, List.mem_append, not_or] at h
      have hnone : newline ∉ l ++ data := by
        rw [List.mem_append, not_or]
        exact ⟨hl, h.1⟩
      rw [printed, matchingLines_of_notMem hnone, kept, if_neg h.1, ih List.not_mem_nil h.2]
      rfl

/-- When nothing is lost the reads could as well have been one. -/
theorem NoneLost.printed {pattern : List UInt8} {results : List (List UInt8)} :
    ∀ {l : List UInt8}, newline ∉ l → NoneLost results →
      printed pattern l results = matchingLines pattern (l ++ results.flatten) := by
  induction results with
  | nil =>
      intro l hl _
      rw [List.flatten_nil, List.append_nil, matchingLines_of_notMem hl]
      rfl
  | cons data results ih =>
      intro l hl h
      by_cases hdata : newline ∈ data
      · rw [Grep.printed, kept, if_pos hdata, ih (notMem_unfinished _) h.2, List.flatten_cons,
          ← List.append_assoc, ← matchingLines_append]
      · have hrest : newline ∉ results.flatten := fun hmem => hdata (h.1 hmem)
        have hall : newline ∉ (data :: results).flatten := by
          rw [List.flatten_cons, List.mem_append, not_or]
          exact ⟨hdata, hrest⟩
        have hnone : newline ∉ l ++ (data :: results).flatten := by
          rw [List.mem_append, not_or]
          exact ⟨hl, hall⟩
        rw [printed_of_notMem hl hall, matchingLines_of_notMem hnone]

/-- An unended line in front of one that ends comes out with it. -/
theorem length_matchingLines_front {front l : List UInt8} (h : newline ∉ front)
    (hl : newline ∈ l) :
    (matchingLines [] (front ++ l)).length = front.length + (matchingLines [] l).length := by
  have hall := length_matchingLines_nil (front ++ l)
  have hrest := length_matchingLines_nil l
  obtain ⟨first, rest, rfl, hfirst⟩ := List.eq_append_cons_of_mem hl
  have hline : newline ∉ front ++ first := by
    rw [List.mem_append, not_or]
    exact ⟨h, hfirst⟩
  rw [← List.append_assoc, unfinished_cons hline] at hall
  rw [unfinished_cons hfirst] at hrest
  rw [← List.append_assoc]
  simp only [List.length_append] at hall hrest ⊢
  omega

/-- The empty pattern finds out whether bytes have been lost. -/
theorem length_printed_nil {results : List (List UInt8)} :
    ∀ {l : List UInt8}, newline ∉ l → (∀ data ∈ results, 0 < data.length) →
      (printed [] l results).length ≤ (matchingLines [] (l ++ results.flatten)).length ∧
        ((printed [] l results).length = (matchingLines [] (l ++ results.flatten)).length →
          NoneLost results) := by
  induction results with
  | nil => exact fun _ _ => ⟨Nat.zero_le _, fun _ => trivial⟩
  | cons data results ih =>
      intro l hl hpos
      have hpos' : ∀ data ∈ results, 0 < data.length :=
        fun data hdata => hpos data (List.mem_cons_of_mem _ hdata)
      rw [printed, kept, List.flatten_cons, ← List.append_assoc]
      by_cases hdata : newline ∈ data
      · obtain ⟨hle, heq⟩ := ih (notMem_unfinished (l ++ data)) hpos'
        rw [if_pos hdata, matchingLines_append (l := l ++ data), List.length_append,
          List.length_append]
        exact ⟨by omega, fun h => ⟨fun _ => hdata, heq (by omega)⟩⟩
      · have hnone : newline ∉ l ++ data := by
          rw [List.mem_append, not_or]
          exact ⟨hl, hdata⟩
        rw [if_neg hdata, matchingLines_of_notMem hnone, List.nil_append]
        by_cases hrest : newline ∈ results.flatten
        · obtain ⟨hle, _⟩ := ih (l := []) List.not_mem_nil hpos'
          have hdatapos := hpos data List.mem_cons_self
          rw [length_matchingLines_front hnone hrest, List.length_append]
          rw [List.nil_append] at hle
          exact ⟨by omega, fun h => by omega⟩
        · rw [printed_of_notMem List.not_mem_nil hrest]
          refine ⟨Nat.zero_le _, fun _ => noneLost_of_notMem ?_⟩
          rw [List.flatten_cons, List.mem_append, not_or]
          exact ⟨hdata, hrest⟩

theorem State.Reads.pos {pattern : List UInt8} {results : List (List UInt8)} :
    ∀ {s : State}, s.Reads pattern results → ∀ data ∈ results, 0 < data.length := by
  induction results with
  | nil => exact fun _ data hdata => absurd hdata List.not_mem_nil
  | cons first results ih =>
      intro s h data hdata
      cases hdata with
      | head => exact h.1.1
      | tail _ hmem => exact ih h.2 data hmem

/-- The reads with which each pattern gets exactly the lines that end and match. -/
theorem grep_prints_iff (buf : Bytes) (results : List (List UInt8)) (hzero : 0 ∉ results.flatten)
    (hreads : ∀ pattern, (start buf).Reads pattern results) :
    (∀ pattern, ((start buf).grep pattern results).out =
        matchingLines pattern results.flatten) ↔ NoneLost results := by
  constructor
  · intro h
    have hnil := h []
    rw [grep_out buf hzero (hreads [])] at hnil
    have hlength := length_printed_nil (l := []) List.not_mem_nil (hreads []).pos
    exact hlength.2 (congrArg List.length hnil)
  · intro h pattern
    rw [grep_out buf hzero (hreads pattern)]
    exact h.printed List.not_mem_nil

theorem grep_prints_iff_twoReads :
    NoneLost [[97, 10, 98], [10]] ∧
      ∀ pattern, ((start fun _ => 0).grep pattern [[97, 10, 98], [10]]).out =
        matchingLines pattern [97, 10, 98, 10] := by
  have hreads (pattern : List UInt8) :
      (start fun _ => 0).Reads pattern [[97, 10, 98], [10]] := by
    have hround := (carries_start fun _ => 0).round pattern
      (show (0 : UInt8) ∉ [97, 10, 98] by decide) (by decide)
    refine ⟨⟨by decide, by decide⟩, ⟨by decide, ?_⟩, trivial⟩
    rw [hround.2.length]
    decide
  have hnone : NoneLost [[97, 10, 98], [10]] := by decide
  exact ⟨hnone, (grep_prints_iff (fun _ => 0) _ (by decide) hreads).mpr hnone⟩

/-- The first byte of a line comes alone, and is not printed. -/
theorem not_all_printed :
    ¬ ∀ (pattern : List UInt8) (buf : Bytes) (results : List (List UInt8)),
      0 ∉ results.flatten →
        (∀ line ∈ results.flatten.splitOn newline, line.length ≤ 1022) →
          (start buf).Reads pattern results →
            ((start buf).grep pattern results).out = matchingLines pattern results.flatten := by
  intro h
  have hreads : (start fun _ => 0).Reads [98] [[97], [98, 10]] := by
    refine ⟨⟨by decide, by decide⟩, ⟨by decide, ?_⟩, trivial⟩
    rw [((carries_start fun _ => 0).round [98] (by decide) (by decide)).2.length]
    decide
  have hout := h [98] (fun _ => 0) [[97], [98, 10]] (by decide) (by decide) hreads
  rw [grep_out _ (by decide) hreads] at hout
  exact absurd hout (by decide)

end OsWork.Ports.Grep
