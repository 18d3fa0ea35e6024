import OsWork.Ports.IdeKnowledge

/-!
# The requests are served in order, once and for all

The annotation of the driver fits its code; what the lists of the requests say in
every state follows.

## Main results

* `noReadError_served` — without a read error the requests are served as they should.
-/

namespace OsWork.Ports.IdeDisk

open OsWork.Verified.Monitor OsWork.Verified.Transition OsWork.Verified.LinkedRing
open Function (update)

variable {P B Data : Type}

/-! ## The outline fits -/

section Valid

variable [DecidableEq P] [DecidableEq B]

theorem next_of_turn {ok : IdeState P B Data → Act (Thread P) (In B Data) → Prop}
    {s : IdeState P B Data} {t : Thread P} {x : Loc B} {op : Op Unit B (Ide P B Data) (Loc B)}
    (h : Turn outline code ok s t x op) : Next t x s.data op := by
  obtain ⟨i, hcode, -⟩ := h.next
  exact Next.of_code hcode

theorem valid (ok : IdeState P B Data → Act (Thread P) (In B Data) → Prop) :
    (outline : Outline (Thread P) Unit B (Ide P B Data) (Loc B)).Valid code ok where
  acquire := by
    intro s t x l y hturn hinv
    obtain ⟨hfor, hknows⟩ := hturn.knows
    cases next_of_turn hturn with
    | @iderw b hx hlock hundone =>
        rw [hx] at hfor hknows
        refine ⟨⟨hfor, ⟨hinv, hlock, hknows, hundone⟩⟩, ?_, ?_⟩
        · intro l'
          exact iff_of_true trivial (.inr rfl)
        · intro b' howes
          have howes : x = .wake b' := howes
          rw [hx] at howes
          cases howes
    | enter hx =>
        rw [hx] at hfor hknows
        refine ⟨⟨hfor, hinv, hknows⟩, ?_, ?_⟩
        · intro l'
          exact iff_of_true trivial (.inr rfl)
        · intro b' howes
          have howes : x = .wake b' := howes
          rw [hx] at howes
          cases howes
  release := by
    intro s t x l y hturn
    obtain ⟨hfor, hknows⟩ := hturn.knows
    cases next_of_turn hturn with
    | @leave b n hx =>
        have hnone : ∀ b', x ≠ .wake b' := by
          intro b' heq
          rw [hx] at heq
          cases heq
        rw [hx] at hfor hknows
        obtain ⟨hready, hwaits, hn⟩ := hknows
        refine ⟨⟨hfor, ?_⟩, hready, ?_, fun b' howes => absurd howes (hnone b'),
          fun b' howes => absurd howes (hnone b')⟩
        · intro c hc _
          by_cases heq : c = b
          · rw [heq]
            exact (hwaits.done hn).1
          · exact hwaits.owns c hc fun hsome => heq (Option.some.inj hsome).symm
        · intro l'
          exact iff_of_false id fun hboth => hboth.2 rfl
    | exit hx =>
        have hnone : ∀ b', x ≠ .wake b' := by
          intro b' heq
          rw [hx] at heq
          cases heq
        rw [hx] at hfor hknows
        refine ⟨⟨hfor, hknows.2⟩, hknows.1, ?_, fun b' howes => absurd howes (hnone b'),
          fun b' howes => absurd howes (hnone b')⟩
        intro l'
        exact iff_of_false id fun hboth => hboth.2 rfl
  wakeup := by
    intro s t x ch y hturn
    obtain ⟨hfor, hknows⟩ := hturn.knows
    cases next_of_turn hturn with
    | wake hx =>
        refine ⟨?_, ?_, ?_⟩
        · rw [hx] at hfor hknows
          exact ⟨hfor, hknows⟩
        · intro l
          rw [hx]
          exact iff_of_true trivial trivial
        · intro ch' hne howes
          have howes : x = .wake ch' := howes
          rw [hx] at howes
          cases howes
          exact absurd rfl hne
  sleep := by
    intro s t x ch l y hturn
    obtain ⟨hfor, hknows⟩ := hturn.knows
    cases next_of_turn hturn with
    | @sleep b n hx hundone =>
        rw [hx] at hfor hknows
        obtain ⟨hready, hwaits⟩ := hknows
        refine ⟨rfl, ?_, ?_, hready, ?_, ⟨hfor, _, n, rfl, hwaits⟩, ?_⟩
        · intro l'
          rw [hx]
          exact iff_of_true trivial rfl
        · intro l'
          exact iff_of_true trivial rfl
        · apply mem_pending_of_queued hwaits.queued
          by_contra hlt
          rw [(hwaits.done (by omega)).2] at hundone
          cases hundone
        · intro ch' howes
          have howes : x = .wake ch' := howes
          rw [hx] at howes
          cases howes
  regain := by
    rintro t l y d ⟨hfor, b, n, rfl, hwaits⟩ hinv
    exact ⟨hfor, hinv, hwaits⟩
  store := by
    intro s t x d y hturn
    obtain ⟨hfor, hknows⟩ := hturn.knows
    have hnext := next_of_turn hturn
    refine ⟨hnext.knows hfor hknows, ?_, ?_, ?_, ?_⟩
    · intro l
      exact hnext.inside
    · intro ch howes
      have howes : x = .wake ch := howes
      rw [howes] at hnext
      cases hnext with
      | outside hx | clear hx | walk hx | append hx | first hx | behind hx | done hx | take hx
      | nothing hx | pop hx | noData hx | read hx | mark hx | last hx | next hx | finish hx =>
          cases hx
    · intro l hx hinv
      exact (hnext.aside hx hfor hknows).ready hinv
    · intro ch hch
      exact hnext.idle hknows hch
  others := by
    rintro s t q x d y z hturn hq hapart ⟨hzfor, hz⟩
    obtain ⟨hfor, hknows⟩ := hturn.knows
    have hnext := next_of_turn hturn
    have hleaves := hnext.leaves hfor hknows
    refine ⟨hzfor, ?_⟩
    by_cases hin : z.inside
    · have hx : ¬ x.inside := fun hx => hapart () hx hin
      exact (hnext.aside hx hfor hknows).knows hq hin hzfor hz
    · cases z with
      | out => exact Owns.leaves hz hleaves hq
      | idle =>
          have ht : t ≠ .intr := fun ht => hq (hzfor.trans ht.symm)
          show d.taken = d.completed.length
          rw [(hleaves.handler ht).1, (hleaves.handler ht).2]
          exact hz
      | enter =>
          have ht : t ≠ .intr := fun ht => hq (hzfor.trans ht.symm)
          show d.taken = d.completed.length + 1
          rw [(hleaves.handler ht).1, (hleaves.handler ht).2]
          exact hz
      | device => trivial
      | _ => exact absurd trivial hin
  waiting := by
    rintro s t q x d y l z hturn hq ⟨hqfor, b, n, hz, hwaits⟩
    obtain ⟨hfor, hknows⟩ := hturn.knows
    exact ⟨hqfor, b, n, hz, hwaits.leaves ((next_of_turn hturn).leaves hfor hknows) hq⟩

end Valid

/-! ## Every run -/

section Runs

variable [DecidableEq P] [DecidableEq B] {havedisk1 : Bool} {disk : Nat → Nat → Data}
  {zero : Data} {s : IdeState P B Data}

theorem good (h : (driver havedisk1 disk zero).Reachable s) : outline.Good s := by
  have hstart : Ready (initial havedisk1 disk zero : Ide P B Data) :=
    { completed := List.prefix_refl _
      started := List.prefix_refl _
      few := Nat.zero_le _
      handled := Nat.le_refl _
      taken := Nat.le_refl _
      raised := rfl
      nodup := List.nodup_nil
      undone := fun b hb => (by cases hb)
      locked := fun b hb => (by cases hb)
      command := fun c b hc => (by cases hc)
      port := fun b _ hb => (by cases hb)
      reads := fun c hc => (by cases hc)
      chain := rfl
      working := rfl }
  apply (valid fun _ _ => True).good _ _ _ h
  · intro t
    cases t with
    | proc p => exact ⟨⟨p, rfl⟩, fun b _ _ hb => (by cases hb)⟩
    | intr => exact ⟨rfl, rfl⟩
    | device => exact ⟨rfl, trivial⟩
  · intro t l hin
    cases t with
    | proc p => exact hin
    | intr => exact hin
    | device => exact hin
  · intro l
    exact hstart

/-- The device ends a read with an error status. -/
def ReadError (s : IdeState P B Data) (a : Act (Thread P) (In B Data)) : Bool :=
  match a, s.data.busy with
  | .run _ (.finish false), some c => c.write.isNone
  | _, _ => false

def NoReadError (s : IdeState P B Data) (a : Act (Thread P) (In B Data)) : Prop :=
  ReadError s a = false

/-- The requests are served as they should. -/
structure Served (s : IdeState P B Data) : Prop where
  /-- in the order of the queue, each once -/
  order : s.data.started <+: s.data.queued
  once : s.data.completed.map (·.buf) <+: s.data.started
  /-- no request is left while the device has nothing to do -/
  working : s.holder () = none →
    s.data.started = s.data.queued.take (s.data.completed.length + 1)
  /-- `iderw` returns after its own request -/
  returns : ∀ t b n, s.ctl t = .run (.leave b n) →
    s.data.queued[n]? = some b ∧ ∃ c, s.data.completed[n]? = some c ∧ c.buf = b
  /-- what a read marks `B_VALID` -/
  reads : ∀ c ∈ s.data.completed, c.read = true →
    (c.failed = true → c.valid = false) ∧ (c.valid = true → c.data = c.content)

omit [DecidableEq P] [DecidableEq B] in
theorem core_of_good (h : outline.Good s) : Core s.data := by
  cases hfree : s.holder () with
  | none => exact (h.inv () hfree).toCore
  | some t =>
      have hholds := (h.holds t ()).mp hfree
      cases hctl : s.ctl t with
      | run x =>
          rw [hctl] at hholds
          obtain ⟨-, hknows⟩ := h.knows t x hctl
          cases x with
          | out | idle | enter | device => exact hholds.elim
          | clear b => exact hknows.ready.toCore
          | walk b pp => exact hknows.1.ready.toCore
          | first b n => exact hknows.1
          | wait b n | leave b n | head | exit => exact hknows.1.toCore
          | read b => exact hknows.core
          | mark b => exact hknows.1.core
          | wake b | next => exact hknows.1.core
      | swap ch l y => exact (h.swap t ch l y hctl).1.toCore
      | drowsy | asleep | woken | resumed | regain =>
          rw [hctl] at hholds
          exact hholds.elim

/-- No request has failed so far. -/
def Ide.Clean (d : Ide P B Data) : Prop := d.err = false ∧ ∀ c ∈ d.completed, c.failed = false

theorem Ide.Clean.store {t : Thread P} {x y : Loc B} {i : In B Data} {d d' : Ide P B Data}
    {k : Bool} (h : d.Clean) (hcode : code t x i d k = some (.store d' y))
    (hok : i = .finish false → ∀ c, d.busy = some c → c.write ≠ none) :
    d'.Clean := by
  cases Next.of_code hcode with
  | @append b pp hx hlink =>
      obtain ⟨-, -, hcompleted, -, herr, -⟩ := setLink_same (d := d) pp (some b)
      constructor
      · show (d.setLink pp (some b)).err = false
        rw [herr]
        exact h.1
      · show ∀ c ∈ (d.setLink pp (some b)).completed, _
        rw [hcompleted]
        exact h.2
  | @mark b hx =>
      refine ⟨h.1, ?_⟩
      intro c hc
      rcases List.mem_append.mp hc with hc | hc
      · exact h.2 c hc
      · rw [List.mem_singleton.mp hc]
        exact h.1
  | first hx hqueue hd | next hx hqueue hd =>
      unfold idestart at hd
      split at hd
      · cases hd
        exact h
      · cases hd
  | @finish c ok hx hbusy =>
      subst hx
      cases i with
      | finish ok' =>
          simp only [code, hbusy, Option.some.injEq, Op.store.injEq, and_true] at hcode
          rw [← hcode]
          cases ok' with
          | true =>
              unfold finish
              split
              · exact ⟨rfl, h.2⟩
              · exact ⟨rfl, h.2⟩
          | false =>
              have hwrite := hok rfl c hbusy
              unfold finish
              split
              · exact ⟨rfl, h.2⟩
              · rename_i hread
                exact absurd hread hwrite
      | _ =>
          simp only [code, hbusy] at hcode
          cases hcode
  | outside | clear | walk | behind | done | take | nothing | pop | noData | read | last => exact h

theorem clean (h : (driver havedisk1 disk zero).ReachableWhen NoReadError s) : s.data.Clean := by
  apply System.ReachableWhen.invariant _ _ h
  · rintro _ rfl
    exact ⟨rfl, fun c hc => (by cases hc)⟩
  · intro u a v hu hok hs
    cases Move.of_step hs with
    | @store t i x y d hctl hcode =>
        apply hu.store hcode
        rintro rfl c hbusy hread
        have hok : ReadError u (.run t (.finish false)) = false := hok
        simp only [ReadError, hbusy, hread] at hok
        cases hok
    | _ => exact hu

/-- When no read ends with an error, the requests are served as they should. -/
theorem noReadError_served (P B Data : Type) [DecidableEq P] [DecidableEq B] (havedisk1 : Bool)
    (disk : Nat → Nat → Data) (zero : Data) (s : IdeState P B Data)
    (h : (driver havedisk1 disk zero).ReachableWhen NoReadError s) : Served s := by
  have hgood := good h.reachable
  have hcore := core_of_good hgood
  have hclean := clean h
  exact
    { order := hcore.started
      once := hcore.completed
      working := by
        intro hfree
        have hready : Ready s.data := hgood.inv () hfree
        rw [List.prefix_iff_eq_take.mp hready.started, hready.working, List.take_eq_take_iff]
        omega
      returns := by
        intro t b n hctl
        obtain ⟨-, -, hwaits, hn⟩ := hgood.knows t _ hctl
        refine ⟨hwaits.queued, _, List.getElem?_eq_getElem hn, ?_⟩
        obtain ⟨rest, hrest⟩ := hcore.completed.trans hcore.started
        have hqueued := hwaits.queued
        rw [← hrest, List.getElem?_append_left (by rw [List.length_map]; exact hn),
          List.getElem?_map, List.getElem?_eq_getElem hn] at hqueued
        exact Option.some.inj hqueued
      reads := by
        intro c hc hread
        have hfailed := hclean.2 c hc
        refine ⟨fun htrue => ?_, fun _ => hcore.reads c hc hread hfailed⟩
        rw [hfailed] at htrue
        cases htrue }

/-- `p` locks the buffer `b`, and calls `iderw` for it, which goes to sleep after `n`
operations. -/
def request (p : P) (b : B) (dirty : Bool) (blockno data n : Nat) :
    List (Act (Thread P) (In B Nat)) :=
  [.run (.proc p) (.lock b), .run (.proc p) (.change b false dirty 0 blockno data)] ++
    List.replicate n (.run (.proc p) (.iderw b)) ++
    [.go (.proc p), .go (.proc p), .switch (.proc p)]

/-- The device ends a command, and the handler does `n` operations. -/
def ended (ok : Bool) (n : Nat) : List (Act (Thread P) (In B Nat)) :=
  .run .device (.finish ok) :: List.replicate n (.run .intr (.finish ok))

/-- `p` comes back from `sleep`, and does `n` operations. -/
def resumed (p : P) (b : B) (n : Nat) : List (Act (Thread P) (In B Nat)) :=
  List.replicate 3 (.go (.proc p)) ++ List.replicate n (.run (.proc p) (.iderw b))

/-- `p` reads block 5; the request of `q`, which writes 9 to block 6, waits behind it in
the queue. -/
def twoRequests (p q : P) (a b : B) : List (Act (Thread P) (In B Nat)) :=
  request p a false 5 0 5 ++ request q b true 6 9 6 ++ ended true 7 ++ ended true 9 ++
    resumed p a 2 ++ resumed q b 1

/-- The process has returned from the `n`-th request, for the buffer. -/
def returned (s : IdeState P B Nat) (p : P) (b : B) (n : Nat) : Bool :=
  match s.ctl (.proc p) with
  | .run (.leave b' n') => b' == b && n' == n
  | _ => false

omit [DecidableEq P] in
theorem returned_iff {s : IdeState P B Nat} {p : P} {b : B} {n : Nat} :
    returned s p b n = true ↔ s.ctl (.proc p) = .run (.leave b n) := by
  unfold returned
  constructor
  · intro h
    split at h
    · rename_i b' n hctl
      simp only [Bool.and_eq_true, beq_iff_eq] at h
      rw [hctl, h.1, h.2]
    · cases h
  · intro h
    rw [h]
    simp

/-- The content of block 5 of disk 0 is 7. -/
def sevenAtFive (dev blockno : Nat) : Nat := if dev = 0 ∧ blockno = 5 then 7 else 0

theorem noReadError_served_twoRequests : ∃ s : IdeState (Fin 2) (Fin 2) Nat,
    s.ctl (.proc 1) = .run (.leave 1 1) ∧ (s.data.buf 0).data = 7 ∧ s.data.disk 0 6 = 9 ∧
      Served s := by
  obtain ⟨s, hs, htest⟩ := System.exists_reachableWhen_of_run
    (M := driver (P := Fin 2) (B := Fin 2) true sevenAtFive 0) (fun s a => ReadError s a = false)
    (l := twoRequests 0 1 0 1)
    (p := fun s => returned s 1 1 1 && (s.data.buf 0).data == 7 && s.data.disk 0 6 == 9) rfl
    (by decide +kernel)
  simp only [Bool.and_eq_true, beq_iff_eq] at htest
  obtain ⟨⟨hleave, hdata⟩, hdisk⟩ := htest
  exact ⟨s, returned_iff.mp hleave, hdata, hdisk,
    noReadError_served (Fin 2) (Fin 2) Nat true sevenAtFive 0 s hs⟩

/-- After a failed read the buffer is marked `B_VALID` all the same. -/
theorem not_all_served : ¬ ∀ s : IdeState (Fin 1) (Fin 1) Nat,
    (driver true sevenAtFive 0).Reachable s → Served s := by
  intro hall
  obtain ⟨s, hs, htest⟩ := System.exists_reachable_of_run
    (M := driver (P := Fin 1) (B := Fin 1) true sevenAtFive 0)
    (l := request 0 0 false 5 0 5 ++ ended false 8)
    (p := fun s => s.data.completed.any fun c => c.read && c.failed && c.valid) rfl
    (by decide +kernel)
  obtain ⟨c, hc, hflags⟩ := List.any_eq_true.mp htest
  simp only [Bool.and_eq_true] at hflags
  have hvalid := ((hall s hs).reads c hc hflags.1.1).1 hflags.1.2
  rw [hflags.2] at hvalid
  cases hvalid

end Runs

end OsWork.Ports.IdeDisk
