import OsWork.Ports.ShellGrammar

/-!
# The parser of commands in `sh.c`

`parsecmd` and what it calls, on the bytes of a buffer.  A cursor is a position in the
buffer, and a read or a write outside the buffer stops the call.  Each loop and each function
is given a number of rounds.  Memory for the tree is always there, and what a panic prints is
left out.

## Main results

* `gettoken_spec` — what `gettoken` finds behind the cursor, for every string.
* `parse_refines` — the parser does on the bytes what the parser of tokens does on the tokens
  that are left.
* `parsecmd_accepts` — a command is accepted exactly when its tokens are a line.
-/

namespace OsWork.Ports.Shell

/-! ## The functions of `sh.c` -/

/-- A word of the buffer, from `q` up to `eq`. -/
structure Word where
  q : Nat
  eq : Nat
deriving DecidableEq

def whitespace : List UInt8 := [32, 9, 13, 10, 11]

def symbols : List UInt8 := [less, bar, greater, amp, semi, lparen, rparen]

/-- `gettoken` returns 'a' for a word. -/
def letterA : UInt8 := 97

/-- `*s` -/
def load (buf : List UInt8) (s : Nat) : Parse UInt8 :=
  match buf[s]? with
  | some c => .ok c
  | none => .error .outside

/-- `*s = 0` -/
def store0 (buf : List UInt8) (s : Nat) : Parse (List UInt8) :=
  if s < buf.length then .ok (buf.set s 0) else .error .outside

def strlen : List UInt8 → Parse Nat
  | [] => .error .outside
  | c :: buf =>
      if c = 0 then .ok 0
      else do
        let n ← strlen buf
        .ok (n + 1)

section Functions

variable (buf : List UInt8) (es : Nat)

/-- `while(s < es && p(*s)) s++` -/
def scan (p : UInt8 → Bool) : Nat → Nat → Parse Nat
  | 0, _ => .error .rounds
  | n + 1, s =>
      if s < es then do
        let c ← load buf s
        if p c then scan p n (s + 1) else .ok s
      else .ok s

/-- `strchr(whitespace, c)` -/
def isBlank (c : UInt8) : Bool := decide (c ∈ whitespace)

/-- `!strchr(whitespace, c) && !strchr(symbols, c)` -/
def inWord (c : UInt8) : Bool := decide (c ∉ whitespace ∧ c ∉ symbols)

def skip (s : Nat) : Parse Nat := scan buf es isBlank (es + 1 - s) s

/-- The switch of `gettoken`: what it returns, and the end of the token. -/
def tokenAt (s : Nat) : Parse (UInt8 × Nat) := do
  let c ← load buf s
  if c = 0 then .ok (0, s)
  else if c ∈ [bar, lparen, rparen, semi, amp, less] then .ok (c, s + 1)
  else if c = greater then do
    let d ← load buf (s + 1)
    if d = greater then .ok (plus, s + 2) else .ok (greater, s + 1)
  else do
    let eq ← scan buf es inWord (es + 1 - s) s
    .ok (letterA, eq)

/-- What `gettoken` returns and stores. -/
structure Got where
  ret : UInt8
  q : Nat
  eq : Nat
  ps : Nat

def gettoken (ps : Nat) : Parse Got := do
  let q ← skip buf es ps
  let (ret, eq) ← tokenAt buf es q
  let ps ← skip buf es eq
  .ok ⟨ret, q, eq, ps⟩

def peek (ps : Nat) (toks : List UInt8) : Parse (Bool × Nat) := do
  let s ← skip buf es ps
  let c ← load buf s
  .ok (decide (c ≠ 0 ∧ c ∈ toks), s)

def parseredirs : Nat → Cmd Word → Nat → Parse (Cmd Word × Nat)
  | 0, _, _ => .error .rounds
  | n + 1, cmd, ps => do
      let (found, ps) ← peek buf es ps [less, greater]
      if found then do
        let tok ← gettoken buf es ps
        let file ← gettoken buf es tok.ps
        if file.ret = letterA then
          parseredirs n (redirNode tok.ret ⟨file.q, file.eq⟩ cmd) file.ps
        else .error (.panic .missingFile)
      else .ok (cmd, ps)

/-- The loop of `parseexec`. -/
def parseargs : Nat → Cmd Word → Nat → Nat → Parse (Cmd Word × Nat)
  | 0, _, _, _ => .error .rounds
  | n + 1, cmd, argc, ps => do
      let (found, ps) ← peek buf es ps [bar, rparen, amp, semi]
      if found then .ok (cmd, ps)
      else do
        let tok ← gettoken buf es ps
        if tok.ret = 0 then .ok (cmd, tok.ps)
        else if tok.ret ≠ letterA then .error (.panic .syntaxError)
        else if MAXARGS ≤ argc + 1 then .error (.panic .tooManyArgs)
        else do
          let (cmd, ps) ← parseredirs buf es n (addArg cmd ⟨tok.q, tok.eq⟩) tok.ps
          parseargs n cmd (argc + 1) ps

/-- The loop of `parseline`. -/
def parsebacks : Nat → Cmd Word → Nat → Parse (Cmd Word × Nat)
  | 0, _, _ => .error .rounds
  | n + 1, cmd, ps => do
      let (found, ps) ← peek buf es ps [amp]
      if found then do
        let tok ← gettoken buf es ps
        parsebacks n (.back cmd) tok.ps
      else .ok (cmd, ps)

mutual

def parseline : Nat → Nat → Parse (Cmd Word × Nat)
  | 0, _ => .error .rounds
  | n + 1, ps => do
      let (cmd, ps) ← parsepipe n ps
      let (cmd, ps) ← parsebacks buf es n cmd ps
      let (found, ps) ← peek buf es ps [semi]
      if found then do
        let tok ← gettoken buf es ps
        let (right, ps) ← parseline n tok.ps
        .ok (.list cmd right, ps)
      else .ok (cmd, ps)
termination_by structural n => n

def parsepipe : Nat → Nat → Parse (Cmd Word × Nat)
  | 0, _ => .error .rounds
  | n + 1, ps => do
      let (cmd, ps) ← parseexec n ps
      let (found, ps) ← peek buf es ps [bar]
      if found then do
        let tok ← gettoken buf es ps
        let (right, ps) ← parsepipe n tok.ps
        .ok (.pipe cmd right, ps)
      else .ok (cmd, ps)
termination_by structural n => n

def parseexec : Nat → Nat → Parse (Cmd Word × Nat)
  | 0, _ => .error .rounds
  | n + 1, ps => do
      let (found, ps) ← peek buf es ps [lparen]
      if found then parseblock n ps
      else do
        let (cmd, ps) ← parseredirs buf es n (.exec []) ps
        parseargs buf es n cmd 0 ps
termination_by structural n => n

def parseblock : Nat → Nat → Parse (Cmd Word × Nat)
  | 0, _ => .error .rounds
  | n + 1, ps => do
      let (found, ps) ← peek buf es ps [lparen]
      if found then do
        let tok ← gettoken buf es ps
        let (cmd, ps) ← parseline n tok.ps
        let (found, ps) ← peek buf es ps [rparen]
        if found then do
          let tok ← gettoken buf es ps
          parseredirs buf es n cmd tok.ps
        else .error (.panic .missingParen)
      else .error (.panic .parseblock)
termination_by structural n => n

end

end Functions

/-- The loop of `nulterminate` for `EXEC`. -/
def nulterminateArgs : List Word → List UInt8 → Parse (List UInt8)
  | [], buf => .ok buf
  | w :: argv, buf => do
      let buf ← store0 buf w.eq
      nulterminateArgs argv buf

def nulterminate : Cmd Word → List UInt8 → Parse (List UInt8)
  | .exec argv, buf => nulterminateArgs argv buf
  | .redir cmd file _ _, buf => do
      let buf ← nulterminate cmd buf
      store0 buf file.eq
  | .pipe left right, buf => do
      let buf ← nulterminate left buf
      nulterminate right buf
  | .list left right, buf => do
      let buf ← nulterminate left buf
      nulterminate right buf
  | .back cmd, buf => nulterminate cmd buf

/-- The tree, and the buffer after the call. -/
def parsecmd (n : Nat) (buf : List UInt8) : Parse (Cmd Word × List UInt8) := do
  let es ← strlen buf
  let (cmd, ps) ← parseline buf es n 0
  let (_, ps) ← peek buf es ps []
  if ps ≠ es then .error (.panic .syntaxError)
  else do
    let buf ← nulterminate cmd buf
    .ok (cmd, buf)

/-! ## The tokens of a string -/

def Got.token (g : Got) : Token Word :=
  if g.ret = letterA then .word ⟨g.q, g.eq⟩ else .sym g.ret

/-- The tokens from `ps` on, as `gettoken` splits them. -/
def tokensFrom (buf : List UInt8) (es : Nat) : Nat → Nat → List (Token Word)
  | 0, _ => []
  | n + 1, ps =>
      match gettoken buf es ps with
      | .ok g => if g.ret = 0 then [] else g.token :: tokensFrom buf es n g.ps
      | .error _ => []

/-- The string in memory. -/
def buffer (text : List UInt8) : List UInt8 := text ++ [0]

/-- The tokens from a position of the string on. -/
def remaining (text : List UInt8) (ps : Nat) : List (Token Word) :=
  tokensFrom (buffer text) text.length (text.length + 1) ps

def tokens (text : List UInt8) : List (Token Word) := remaining text 0

/-! ## Scans -/

section Scans

variable {text : List UInt8} {p : UInt8 → Bool} {n s s' : Nat}

theorem load_buffer (hs : s ≤ text.length) : load (buffer text) s = .ok (text.getD s 0) := by
  unfold load buffer
  rcases Nat.lt_or_eq_of_le hs with hs | rfl
  · rw [List.getElem?_append_left hs, List.getElem?_eq_getElem hs,
      List.getD_eq_getElem?_getD, List.getElem?_eq_getElem hs]
    rfl
  · rw [List.getElem?_append_right (Nat.le_refl _), Nat.sub_self,
      List.getD_eq_getElem?_getD, List.getElem?_eq_none (Nat.le_refl _)]
    rfl

theorem strlen_buffer (hzero : 0 ∉ text) : strlen (buffer text) = .ok text.length := by
  induction text with
  | nil => rfl
  | cons c text ih =>
      have hc : c ≠ 0 := fun hc => hzero (hc ▸ List.mem_cons_self)
      show (if c = 0 then _ else strlen (buffer text) >>= _) = _
      rw [if_neg hc, ih fun hmem => hzero (List.mem_cons_of_mem _ hmem)]
      rfl

theorem getD_eq_zero (hzero : 0 ∉ text) : text.getD s 0 = 0 ↔ text.length ≤ s := by
  rw [List.getD_eq_getElem?_getD]
  constructor
  · intro h
    by_contra hlt
    rw [List.getElem?_eq_getElem (Nat.lt_of_not_le hlt)] at h
    exact hzero (h ▸ List.getElem_mem _)
  · intro h
    rw [List.getElem?_eq_none h]
    rfl

/-- A scan passed bytes with the property, and stopped at one without it or at the end. -/
structure Scanned (text : List UInt8) (p : UInt8 → Bool) (s s' : Nat) : Prop where
  le : s ≤ s'
  le_length : s' ≤ text.length
  passed : ∀ j, s ≤ j → j < s' → p (text.getD j 0) = true
  stopped : s' < text.length → p (text.getD s' 0) = false

theorem scan_spec (p : UInt8 → Bool) (hs : s ≤ text.length) (hn : text.length - s < n) :
    ∃ s', scan (buffer text) text.length p n s = .ok s' ∧ Scanned text p s s' := by
  induction n generalizing s with
  | zero => exact absurd hn (Nat.not_lt_zero _)
  | succ n ih =>
      unfold scan
      by_cases hlt : s < text.length
      · rw [if_pos hlt, load_buffer hs]
        show ∃ s', (if p (text.getD s 0) = true then _ else _) = _ ∧ _
        by_cases hp : p (text.getD s 0) = true
        · rw [if_pos hp]
          obtain ⟨s', hscan, h⟩ := ih (s := s + 1) hlt (by omega)
          refine ⟨s', hscan, Nat.le_of_succ_le h.le, h.le_length, fun j hj hj' => ?_, h.stopped⟩
          rcases Nat.eq_or_lt_of_le hj with rfl | hj
          · exact hp
          · exact h.passed j hj hj'
        · rw [if_neg hp]
          exact ⟨s, rfl, Nat.le_refl _, hs, fun j hj hj' => absurd hj' (Nat.not_lt.2 hj),
            fun _ => eq_false_of_ne_true hp⟩
      · rw [if_neg hlt]
        exact ⟨s, rfl, Nat.le_refl _, hs, fun j hj hj' => absurd hj' (Nat.not_lt.2 hj),
          fun h => absurd h hlt⟩

theorem skip_spec (hs : s ≤ text.length) :
    ∃ s', skip (buffer text) text.length s = .ok s' ∧ Scanned text isBlank s s' :=
  scan_spec isBlank hs (by omega)

/-- Nothing is left to skip behind a skip. -/
theorem Scanned.skip (h : Scanned text isBlank s s') :
    skip (buffer text) text.length s' = .ok s' := by
  have hle := h.le_length
  unfold Shell.skip
  rw [show text.length + 1 - s' = text.length - s' + 1 by omega]
  unfold scan
  by_cases hlt : s' < text.length
  · rw [if_pos hlt, load_buffer hle]
    show (if isBlank (text.getD s' 0) = true then _ else _) = _
    rw [if_neg (ne_true_of_eq_false (h.stopped hlt))]
  · rw [if_neg hlt]

/-- Behind a skip there is no blank, also at the end of the string. -/
theorem Scanned.not_blank (h : Scanned text isBlank s s') : isBlank (text.getD s' 0) = false := by
  rcases Nat.lt_or_eq_of_le h.le_length with hlt | rfl
  · exact h.stopped hlt
  · rw [List.getD_eq_getElem?_getD, List.getElem?_eq_none (Nat.le_refl _)]
    rfl

end Scans

/-! ## Tokens -/

section Tokens

variable {text : List UInt8} {q eq s : Nat} {ret : UInt8}

/-- The token at `q`: what `gettoken` returns for it, and where it ends. -/
inductive TokenAt (text : List UInt8) (q : Nat) : UInt8 → Nat → Prop
  | finish : q = text.length → TokenAt text q 0 q
  | symbol : q < text.length → text.getD q 0 ∈ [bar, lparen, rparen, semi, amp, less] →
      TokenAt text q (text.getD q 0) (q + 1)
  | greater : q < text.length → text.getD q 0 = greater → TokenAt text q greater (q + 1)
  | append : q + 1 < text.length → text.getD q 0 = Shell.greater → TokenAt text q plus (q + 2)
  | word {eq : Nat} : q < eq → eq ≤ text.length → text.getD q 0 ∉ symbols →
      Scanned text inWord q eq → TokenAt text q letterA eq

theorem TokenAt.le (h : TokenAt text q ret eq) : q ≤ eq := by
  cases h with
  | finish _ => exact Nat.le_refl _
  | symbol _ _ => exact Nat.le_succ _
  | greater _ _ => exact Nat.le_succ _
  | append _ _ => exact Nat.le_add_right _ _
  | word hlt _ _ _ => exact Nat.le_of_lt hlt

theorem TokenAt.le_length (h : TokenAt text q ret eq) : eq ≤ text.length := by
  cases h with
  | finish hq => exact Nat.le_of_eq hq
  | symbol hq _ => exact hq
  | greater hq _ => exact hq
  | append hq _ => exact hq
  | word _ hle _ _ => exact hle

/-- A token that is not the end of the string has a byte. -/
theorem TokenAt.lt (h : TokenAt text q ret eq) (hret : ret ≠ 0) : q < eq := by
  cases h with
  | finish _ => exact absurd rfl hret
  | symbol _ _ => exact Nat.lt_succ_self _
  | greater _ _ => exact Nat.lt_succ_self _
  | append _ _ => exact Nat.lt_add_of_pos_right (by decide)
  | word hlt _ _ _ => exact hlt

/-- Only the end of the string is not a token. -/
theorem TokenAt.finish_iff (h : TokenAt text q ret eq) : q = text.length ↔ ret = 0 := by
  cases h with
  | finish hq => exact iff_of_true hq rfl
  | symbol hq hsym =>
      have hne : ∀ c ∈ [bar, lparen, rparen, semi, amp, less], c ≠ 0 := forall_of_all (by decide)
      exact iff_of_false (Nat.ne_of_lt hq) (hne _ hsym)
  | greater hq _ => exact iff_of_false (Nat.ne_of_lt hq) (by decide)
  | append hq _ => exact iff_of_false (Nat.ne_of_lt (Nat.lt_of_succ_lt hq)) (by decide)
  | word hlt hle _ _ => exact iff_of_false (Nat.ne_of_lt (Nat.lt_of_lt_of_le hlt hle)) (by decide)

theorem TokenAt.scanned (h : TokenAt text q ret eq) (hret : ret = letterA) :
    Scanned text inWord q eq := by
  cases h with
  | finish _ | greater _ _ | append _ _ => exact absurd hret (by decide)
  | symbol _ hsym =>
      have hne : ∀ c ∈ [bar, lparen, rparen, semi, amp, less], c ≠ letterA :=
        forall_of_all (by decide)
      exact absurd hret (hne _ hsym)
  | word _ _ _ hscanned => exact hscanned

theorem tokenAt_spec (hzero : 0 ∉ text) (hq : q ≤ text.length)
    (hblank : isBlank (text.getD q 0) = false) :
    ∃ ret eq, tokenAt (buffer text) text.length q = .ok (ret, eq) ∧ TokenAt text q ret eq := by
  unfold tokenAt
  rw [load_buffer hq]
  show ∃ ret eq, (if text.getD q 0 = 0 then _ else _) = _ ∧ _
  by_cases hend : text.getD q 0 = 0
  · rw [if_pos hend]
    exact ⟨_, _, rfl, .finish (Nat.le_antisymm hq ((getD_eq_zero hzero).1 hend))⟩
  · rw [if_neg hend]
    have hlt : q < text.length := Nat.lt_of_not_le fun hle => hend ((getD_eq_zero hzero).2 hle)
    by_cases hsym : text.getD q 0 ∈ [bar, lparen, rparen, semi, amp, less]
    · rw [if_pos hsym]
      exact ⟨_, _, rfl, .symbol hlt hsym⟩
    · rw [if_neg hsym]
      by_cases hgreater : text.getD q 0 = greater
      · rw [if_pos hgreater, load_buffer hlt]
        show ∃ ret eq, (if text.getD (q + 1) 0 = greater then _ else _) = _ ∧ _
        by_cases happend : text.getD (q + 1) 0 = greater
        · rw [if_pos happend]
          have hlt' : q + 1 < text.length := by
            by_contra hle
            rw [(getD_eq_zero hzero).2 (Nat.le_of_not_lt hle)] at happend
            exact absurd happend (by decide)
          exact ⟨_, _, rfl, .append hlt' hgreater⟩
        · rw [if_neg happend]
          exact ⟨_, _, rfl, .greater hlt hgreater⟩
      · rw [if_neg hgreater]
        obtain ⟨eq, hscan, h⟩ := scan_spec (n := text.length + 1 - q) inWord hq
          (by omega)
        rw [hscan]
        have hsymbols : text.getD q 0 ∉ symbols := by
          simp only [symbols, List.mem_cons, List.not_mem_nil, or_false, not_or] at hsym ⊢
          obtain ⟨hbar, hlparen, hrparen, hsemi, hamp, hless⟩ := hsym
          exact ⟨hless, hbar, hgreater, hamp, hsemi, hlparen, hrparen⟩
        have hword : inWord (text.getD q 0) = true :=
          decide_eq_true ⟨of_decide_eq_false hblank, hsymbols⟩
        refine ⟨_, _, rfl, .word ?_ h.le_length hsymbols h⟩
        apply Nat.lt_of_le_of_ne h.le
        rintro rfl
        exact absurd hword (ne_true_of_eq_false (h.stopped hlt))

/-- What `gettoken` finds. -/
structure GotAt (text : List UInt8) (ps : Nat) (g : Got) : Prop where
  skipped : skip (buffer text) text.length ps = .ok g.q
  blanks : Scanned text isBlank ps g.q
  token : TokenAt text g.q g.ret g.eq
  rest : Scanned text isBlank g.eq g.ps

theorem gettoken_spec (hzero : 0 ∉ text) (hs : s ≤ text.length) :
    ∃ g, gettoken (buffer text) text.length s = .ok g ∧ GotAt text s g := by
  obtain ⟨q, hskip, hblanks⟩ := skip_spec hs
  obtain ⟨ret, eq, htoken, h⟩ := tokenAt_spec hzero hblanks.le_length hblanks.not_blank
  obtain ⟨ps, hskip', hrest⟩ := skip_spec h.le_length
  refine ⟨⟨ret, q, eq, ps⟩, ?_, hskip, hblanks, h, hrest⟩
  unfold gettoken
  rw [hskip]
  show (tokenAt (buffer text) text.length q >>= _) = _
  rw [htoken]
  show (skip (buffer text) text.length eq >>= _) = _
  rw [hskip']
  rfl

theorem GotAt.le_length {g : Got} (h : GotAt text s g) : g.ps ≤ text.length := h.rest.le_length

/-- A token moves the cursor on. -/
theorem GotAt.lt {g : Got} (h : GotAt text s g) (hret : g.ret ≠ 0) : s < g.ps :=
  calc
    s ≤ g.q := h.blanks.le
    _ < g.eq := h.token.lt hret
    _ ≤ g.ps := h.rest.le

/-- Blanks before a token do not count. -/
theorem GotAt.gettoken {g : Got} (h : GotAt text s g) :
    gettoken (buffer text) text.length g.q = gettoken (buffer text) text.length s := by
  unfold Shell.gettoken
  rw [h.skipped, h.blanks.skip]

theorem Scanned.refl_of {p : UInt8 → Bool} {s s' : Nat} (h : Scanned text p s s') :
    Scanned text p s' s' :=
  ⟨Nat.le_refl _, h.le_length, fun _ hj hj' => absurd hj' (Nat.not_lt.2 hj), h.stopped⟩

theorem GotAt.at_token {g : Got} (h : GotAt text s g) : GotAt text g.q g :=
  ⟨h.blanks.skip, h.blanks.refl_of, h.token, h.rest⟩

theorem tokensFrom_rounds (hzero : 0 ∉ text) (n m : Nat) (hs : s ≤ text.length)
    (hn : text.length - s < n) (hm : text.length - s < m) :
    tokensFrom (buffer text) text.length n s = tokensFrom (buffer text) text.length m s := by
  induction n generalizing m s with
  | zero => exact absurd hn (Nat.not_lt_zero _)
  | succ n ih =>
      obtain ⟨m, rfl⟩ := Nat.exists_eq_succ_of_ne_zero (Nat.ne_of_gt (Nat.zero_lt_of_lt hm))
      obtain ⟨g, hgot, h⟩ := gettoken_spec hzero hs
      unfold tokensFrom
      rw [hgot]
      dsimp only
      split
      · rfl
      · next hret =>
          have hlt := h.lt hret
          have hle := h.le_length
          rw [ih m hle (by omega) (by omega)]

theorem remaining_eq (hzero : 0 ∉ text) {g : Got}
    (hgot : gettoken (buffer text) text.length s = .ok g) (h : GotAt text s g) :
    remaining text s = if g.ret = 0 then [] else g.token :: remaining text g.ps := by
  unfold remaining
  rw [tokensFrom, hgot]
  dsimp only
  split
  · rfl
  · next hret =>
      have hlt := h.lt hret
      have hle := h.le_length
      rw [tokensFrom_rounds hzero text.length (text.length + 1) hle (by omega) (by omega)]

/-- Each token takes at least one byte. -/
theorem remaining_length (hzero : 0 ∉ text) (hs : s ≤ text.length) :
    (remaining text s).length ≤ text.length - s := by
  induction hleft : text.length - s using Nat.strongRecOn generalizing s with
  | ind left ih =>
      obtain ⟨g, hgot, h⟩ := gettoken_spec hzero hs
      rw [remaining_eq hzero hgot h]
      split
      · exact Nat.zero_le _
      · next hret =>
          have hlt := h.lt hret
          have hle := h.le_length
          have hrest := ih (text.length - g.ps) (by omega) hle rfl
          rw [List.length_cons]
          omega

theorem remaining_length_text (hzero : 0 ∉ text) : remaining text text.length = [] := by
  have hlength := remaining_length hzero (Nat.le_refl text.length)
  rw [Nat.sub_self] at hlength
  exact List.eq_nil_of_length_eq_zero (Nat.le_zero.1 hlength)

/-- What `gettoken` returns is the next token. -/
theorem gettoken_remaining (hzero : 0 ∉ text) (hs : s ≤ text.length) :
    ∃ g, gettoken (buffer text) text.length s = .ok g ∧ g.ps ≤ text.length ∧
      (g.ret = 0 ∧ remaining text s = [] ∧ remaining text g.ps = [] ∨
        g.ret = letterA ∧ remaining text s = .word ⟨g.q, g.eq⟩ :: remaining text g.ps ∨
        g.ret ≠ 0 ∧ g.ret ≠ letterA ∧ remaining text s = .sym g.ret :: remaining text g.ps) := by
  obtain ⟨g, hgot, h⟩ := gettoken_spec hzero hs
  refine ⟨g, hgot, h.le_length, ?_⟩
  rw [remaining_eq hzero hgot h]
  unfold Got.token
  by_cases hend : g.ret = 0
  · have hq := h.token.finish_iff.2 hend
    have hps : g.ps = text.length :=
      Nat.le_antisymm h.le_length (hq ▸ Nat.le_trans h.token.le h.rest.le)
    exact .inl ⟨hend, if_pos hend, hps ▸ remaining_length_text hzero⟩
  · rw [if_neg hend]
    by_cases hword : g.ret = letterA
    · rw [if_pos hword]
      exact .inr (.inl ⟨hword, rfl⟩)
    · rw [if_neg hword]
      exact .inr (.inr ⟨hend, hword, rfl⟩)

/-- The first bytes of the symbols that `peek` is asked for. -/
structure Looks (toks cs : List UInt8) : Prop where
  symbols : ∀ c ∈ toks, c ∈ Shell.symbols
  same : ∀ c ∈ Shell.symbols, c ∈ toks ↔ c ∈ cs
  append : greater ∈ toks ↔ plus ∈ cs

theorem Looks.starts {toks cs : List UInt8} (hlooks : Looks toks cs) (hzero : 0 ∉ text)
    {g : Got} (hgot : gettoken (buffer text) text.length s = .ok g) (h : GotAt text s g) :
    decide (text.getD g.q 0 ≠ 0 ∧ text.getD g.q 0 ∈ toks) = starts cs (remaining text s) := by
  rw [remaining_eq hzero hgot h]
  obtain ⟨ret, q, eq, ps⟩ := g
  unfold Got.token
  have htoken := h.token
  dsimp only at htoken ⊢
  cases htoken with
  | finish hq =>
      rw [if_pos rfl]
      exact decide_eq_false fun hne => hne.1 ((getD_eq_zero hzero).2 (Nat.le_of_eq hq.symm))
  | symbol hq hsym =>
      have hne : ∀ c ∈ [bar, lparen, rparen, semi, amp, less],
          c ≠ 0 ∧ c ≠ letterA ∧ c ∈ Shell.symbols := forall_of_all (by decide)
      obtain ⟨hend, hword, hsymbols⟩ := hne _ hsym
      rw [if_neg hend, if_neg hword]
      exact decide_eq_decide.2 ((and_iff_right hend).trans (hlooks.same _ hsymbols))
  | greater hq hgreater =>
      rw [hgreater, if_neg (by decide), if_neg (by decide)]
      exact decide_eq_decide.2
        ((and_iff_right (by decide)).trans (hlooks.same greater (by decide)))
  | append hq hgreater =>
      rw [hgreater, if_neg (by decide), if_neg (by decide)]
      exact decide_eq_decide.2 ((and_iff_right (by decide)).trans hlooks.append)
  | word hlt hle hsymbols hscanned =>
      rw [if_neg (by decide), if_pos rfl]
      exact decide_eq_false fun hmem => hsymbols (hlooks.symbols _ hmem.2)

/-- `peek` looks at the next token, and only blanks are passed. -/
theorem peek_spec {toks cs : List UInt8} (hlooks : Looks toks cs) (hzero : 0 ∉ text)
    (hs : s ≤ text.length) :
    ∃ s', peek (buffer text) text.length s toks = .ok (starts cs (remaining text s), s') ∧
      s' ≤ text.length ∧ remaining text s' = remaining text s ∧
      (s' = text.length ↔ remaining text s = []) := by
  obtain ⟨g, hgot, h⟩ := gettoken_spec hzero hs
  have hq := h.blanks.le_length
  refine ⟨g.q, ?_, hq, ?_, ?_⟩
  · unfold peek
    rw [h.skipped]
    show (load (buffer text) g.q >>= _) = _
    rw [load_buffer hq, ← hlooks.starts hzero hgot h]
    rfl
  · rw [remaining_eq hzero (h.gettoken.trans hgot) h.at_token, remaining_eq hzero hgot h]
  · rw [remaining_eq hzero hgot h, h.token.finish_iff]
    split
    · next hret => exact iff_of_true hret rfl
    · next hret => exact iff_of_false hret (List.cons_ne_nil _ _)

theorem gettoken_sym (hzero : 0 ∉ text) (hs : s ≤ text.length) {c : UInt8}
    {rest : List (Token Word)} (h : remaining text s = .sym c :: rest) :
    ∃ g, gettoken (buffer text) text.length s = .ok g ∧ g.ret = c ∧ g.ps ≤ text.length ∧
      remaining text g.ps = rest := by
  obtain ⟨g, hgot, hps, ⟨_, hnil, _⟩ | ⟨_, hword⟩ | ⟨_, _, hsym⟩⟩ := gettoken_remaining hzero hs
  · cases h.symm.trans hnil
  · cases h.symm.trans hword
  · cases h.symm.trans hsym
    exact ⟨g, hgot, rfl, hps, rfl⟩

end Tokens

/-! ## The parser of bytes and the parser of tokens -/

section Refinement

variable {text : List UInt8} {s : Nat}

/-- Both calls panic in the same way, or return the same tree, and the cursor is where the
tokens that are left start. -/
def Refines (text : List UInt8) (r : Parse (Cmd Word × Nat))
    (r' : Parse (Cmd Word × List (Token Word))) : Prop :=
  (∃ t s, r = .ok (t, s) ∧ s ≤ text.length ∧ r' = .ok (t, remaining text s)) ∨
    ∃ e, r = .error e ∧ r' = .error e

theorem refines_ok (t : Cmd Word) (hs : s ≤ text.length) :
    Refines text (.ok (t, s)) (.ok (t, remaining text s)) := .inl ⟨t, s, rfl, hs, rfl⟩

theorem refines_error (e : Stop) : Refines text (.error e) (.error e) := .inr ⟨e, rfl, rfl⟩

theorem Refines.bind {r : Parse (Cmd Word × Nat)} {r' : Parse (Cmd Word × List (Token Word))}
    {f : Cmd Word × Nat → Parse (Cmd Word × Nat)}
    {f' : Cmd Word × List (Token Word) → Parse (Cmd Word × List (Token Word))}
    (h : Refines text r r')
    (hf : ∀ t s, s ≤ text.length → Refines text (f (t, s)) (f' (t, remaining text s))) :
    Refines text (r >>= f) (r' >>= f') := by
  rcases h with ⟨t, s, rfl, hs, rfl⟩ | ⟨e, rfl, rfl⟩
  · exact hf t s hs
  · exact refines_error e

/-- What comes behind a look at the next token. -/
theorem refines_peek {toks cs : List UInt8} (hlooks : Looks toks cs) (hzero : 0 ∉ text)
    (hs : s ≤ text.length) {f : Bool × Nat → Parse (Cmd Word × Nat)}
    {r' : Parse (Cmd Word × List (Token Word))}
    (hf : ∀ s', s' ≤ text.length → remaining text s' = remaining text s →
      Refines text (f (starts cs (remaining text s), s')) r') :
    Refines text (peek (buffer text) text.length s toks >>= f) r' := by
  obtain ⟨s', hpeek, hs', hremaining, _⟩ := peek_spec hlooks hzero hs
  rw [hpeek]
  exact hf s' hs' hremaining

theorem looks_redirs : Looks [less, greater] redirOps :=
  ⟨forall_of_all (by decide), forall_of_all (by decide), by decide⟩

theorem looks_exec : Looks [bar, rparen, amp, semi] [bar, rparen, amp, semi] :=
  ⟨forall_of_all (by decide), forall_of_all (by decide), by decide⟩

theorem looks_singleton {c : UInt8} (hc : c ∈ [bar, lparen, rparen, semi, amp]) :
    Looks [c] [c] := by
  have hall : ∀ c ∈ [bar, lparen, rparen, semi, amp],
      c ∈ symbols ∧ greater ∉ [c] ∧ plus ∉ [c] := forall_of_all (by decide)
  obtain ⟨hsymbols, hgreater, hplus⟩ := hall c hc
  refine ⟨fun c' hc' => ?_, fun _ _ => Iff.rfl, iff_of_false hgreater hplus⟩
  rw [List.mem_singleton.1 hc']
  exact hsymbols

theorem parseredirs_refines (hzero : 0 ∉ text) (n : Nat) (cmd : Cmd Word)
    (hs : s ≤ text.length) :
    Refines text (parseredirs (buffer text) text.length n cmd s)
      (Tokens.parseredirs n cmd (remaining text s)) := by
  induction n generalizing cmd s with
  | zero => exact refines_error _
  | succ n ih =>
      unfold parseredirs Tokens.parseredirs
      apply refines_peek looks_redirs hzero hs
      intro s' hs' hremaining
      rw [← hremaining]
      dsimp only
      by_cases hstart : starts redirOps (remaining text s') = true
      · rw [if_pos hstart, if_pos hstart]
        obtain ⟨tok, htok, hps, ⟨_, hnil, _⟩ | ⟨_, hword⟩ | ⟨_, _, hsym⟩⟩ :=
          gettoken_remaining hzero hs'
        · rw [hnil] at hstart
          cases hstart
        · rw [hword] at hstart
          cases hstart
        · rw [htok, hsym]
          obtain ⟨file, hfile, hps', ⟨hret, hnil, _⟩ | ⟨hret, hword⟩ | ⟨_, hret, hsym'⟩⟩ :=
            gettoken_remaining hzero hps
          · show Refines text (gettoken (buffer text) text.length tok.ps >>= _) _
            rw [hfile, hnil]
            show Refines text (if file.ret = letterA then _ else _) _
            rw [if_neg (by rw [hret]; decide)]
            exact refines_error _
          · show Refines text (gettoken (buffer text) text.length tok.ps >>= _) _
            rw [hfile, hword]
            show Refines text (if file.ret = letterA then _ else _) _
            rw [if_pos hret]
            exact ih _ hps'
          · show Refines text (gettoken (buffer text) text.length tok.ps >>= _) _
            rw [hfile, hsym']
            show Refines text (if file.ret = letterA then _ else _) _
            rw [if_neg hret]
            exact refines_error _
      · rw [if_neg hstart, if_neg hstart]
        exact refines_ok cmd hs'

theorem parseargs_refines (hzero : 0 ∉ text) (n : Nat) (cmd : Cmd Word) (argc : Nat)
    (hs : s ≤ text.length) :
    Refines text (parseargs (buffer text) text.length n cmd argc s)
      (Tokens.parseargs n cmd argc (remaining text s)) := by
  induction n generalizing cmd argc s with
  | zero => exact refines_error _
  | succ n ih =>
      unfold parseargs
      apply refines_peek looks_exec hzero hs
      intro s' hs' hremaining
      rw [← hremaining]
      dsimp only
      obtain ⟨tok, htok, hps, ⟨hret, hnil, hnil'⟩ | ⟨hret, hword⟩ | ⟨hret, hret', hsym⟩⟩ :=
        gettoken_remaining hzero hs'
      · rw [htok, hnil]
        show Refines text (if tok.ret = 0 then _ else _) _
        rw [if_pos hret]
        have hok := refines_ok cmd hps
        rw [hnil'] at hok
        exact hok
      · rw [htok, hword]
        show Refines text (if tok.ret = 0 then _ else _) _
        rw [if_neg (by rw [hret]; decide), if_neg (not_not.2 hret), Tokens.parseargs]
        by_cases htoo : MAXARGS ≤ argc + 1
        · rw [if_pos htoo, if_pos htoo]
          exact refines_error _
        · rw [if_neg htoo, if_neg htoo]
          exact (parseredirs_refines hzero n _ hps).bind fun t s hs => ih t _ hs
      · rw [hsym, Tokens.parseargs]
        by_cases hstart : tok.ret ∈ [bar, rparen, amp, semi]
        · rw [if_pos hstart]
          show Refines text (if decide (tok.ret ∈ [bar, rparen, amp, semi]) = true then _ else _) _
          rw [if_pos (decide_eq_true hstart), ← hsym]
          exact refines_ok cmd hs'
        · rw [if_neg hstart]
          show Refines text (if decide (tok.ret ∈ [bar, rparen, amp, semi]) = true then _ else _) _
          rw [if_neg (ne_true_of_eq_false (decide_eq_false hstart)), htok]
          show Refines text (if tok.ret = 0 then _ else _) _
          rw [if_neg hret, if_pos hret']
          exact refines_error _

theorem parsebacks_refines (hzero : 0 ∉ text) (n : Nat) (cmd : Cmd Word)
    (hs : s ≤ text.length) :
    Refines text (parsebacks (buffer text) text.length n cmd s)
      (Tokens.parsebacks n cmd (remaining text s)) := by
  induction n generalizing cmd s with
  | zero => exact refines_error _
  | succ n ih =>
      unfold parsebacks Tokens.parsebacks
      apply refines_peek (looks_singleton (by decide)) hzero hs
      intro s' hs' hremaining
      rw [← hremaining]
      dsimp only
      by_cases hstart : starts [amp] (remaining text s') = true
      · obtain ⟨rest, hsym⟩ := starts_singleton hstart
        obtain ⟨tok, htok, _, hps, hrest⟩ := gettoken_sym hzero hs' hsym
        rw [if_pos hstart, if_pos hstart, htok, hsym, List.tail_cons, ← hrest]
        exact ih (.back cmd) hps
      · rw [if_neg hstart, if_neg hstart]
        exact refines_ok cmd hs'

/-- The mutually recursive functions, all with the same rounds. -/
theorem parse_refines (hzero : 0 ∉ text) (n : Nat) :
    (∀ s, s ≤ text.length → Refines text (parseline (buffer text) text.length n s)
      (Tokens.parseline n (remaining text s))) ∧
    (∀ s, s ≤ text.length → Refines text (parsepipe (buffer text) text.length n s)
      (Tokens.parsepipe n (remaining text s))) ∧
    (∀ s, s ≤ text.length → Refines text (parseexec (buffer text) text.length n s)
      (Tokens.parseexec n (remaining text s))) ∧
    (∀ s, s ≤ text.length → Refines text (parseblock (buffer text) text.length n s)
      (Tokens.parseblock n (remaining text s))) := by
  induction n with
  | zero =>
      refine ⟨fun s _ => ?_, fun s _ => ?_, fun s _ => ?_, fun s _ => ?_⟩
      · rw [parseline, Tokens.parseline]
        exact refines_error _
      · rw [parsepipe, Tokens.parsepipe]
        exact refines_error _
      · rw [parseexec, Tokens.parseexec]
        exact refines_error _
      · rw [parseblock, Tokens.parseblock]
        exact refines_error _
  | succ n ih =>
      obtain ⟨hline, hpipe, hexec, hblock⟩ := ih
      refine ⟨fun s hs => ?line, fun s hs => ?pipe, fun s hs => ?exec, fun s hs => ?block⟩
      case line =>
        unfold parseline Tokens.parseline
        apply (hpipe s hs).bind
        intro t s hs
        apply (parsebacks_refines hzero n t hs).bind
        intro t s hs
        dsimp only
        apply refines_peek (looks_singleton (by decide)) hzero hs
        intro s' hs' hremaining
        rw [← hremaining]
        dsimp only
        by_cases hstart : starts [semi] (remaining text s') = true
        · obtain ⟨rest, hsym⟩ := starts_singleton hstart
          obtain ⟨tok, htok, _, hps, hrest⟩ := gettoken_sym hzero hs' hsym
          rw [if_pos hstart, if_pos hstart, htok, hsym, List.tail_cons, ← hrest]
          exact (hline tok.ps hps).bind fun right s hs => refines_ok _ hs
        · rw [if_neg hstart, if_neg hstart]
          exact refines_ok t hs'
      case pipe =>
        unfold parsepipe Tokens.parsepipe
        apply (hexec s hs).bind
        intro t s hs
        dsimp only
        apply refines_peek (looks_singleton (by decide)) hzero hs
        intro s' hs' hremaining
        rw [← hremaining]
        dsimp only
        by_cases hstart : starts [bar] (remaining text s') = true
        · obtain ⟨rest, hsym⟩ := starts_singleton hstart
          obtain ⟨tok, htok, _, hps, hrest⟩ := gettoken_sym hzero hs' hsym
          rw [if_pos hstart, if_pos hstart, htok, hsym, List.tail_cons, ← hrest]
          exact (hpipe tok.ps hps).bind fun right s hs => refines_ok _ hs
        · rw [if_neg hstart, if_neg hstart]
          exact refines_ok t hs'
      case exec =>
        unfold parseexec Tokens.parseexec
        apply refines_peek (looks_singleton (by decide)) hzero hs
        intro s' hs' hremaining
        rw [← hremaining]
        dsimp only
        by_cases hstart : starts [lparen] (remaining text s') = true
        · rw [if_pos hstart, if_pos hstart]
          exact hblock s' hs'
        · rw [if_neg hstart, if_neg hstart]
          apply (parseredirs_refines hzero n (.exec []) hs').bind
          intro t s hs
          exact parseargs_refines hzero n t 0 hs
      case block =>
        unfold parseblock Tokens.parseblock
        apply refines_peek (looks_singleton (by decide)) hzero hs
        intro s' hs' hremaining
        rw [← hremaining]
        dsimp only
        by_cases hstart : starts [lparen] (remaining text s') = true
        · obtain ⟨rest, hsym⟩ := starts_singleton hstart
          obtain ⟨tok, htok, _, hps, hrest⟩ := gettoken_sym hzero hs' hsym
          rw [if_pos hstart, if_pos hstart, htok, hsym, List.tail_cons, ← hrest]
          apply (hline tok.ps hps).bind
          intro t s hs
          dsimp only
          apply refines_peek (looks_singleton (by decide)) hzero hs
          intro s' hs' hremaining
          rw [← hremaining]
          dsimp only
          by_cases hclose : starts [rparen] (remaining text s') = true
          · obtain ⟨rest, hsym⟩ := starts_singleton hclose
            obtain ⟨tok, htok, _, hps, hrest⟩ := gettoken_sym hzero hs' hsym
            rw [if_pos hclose, if_pos hclose, htok, hsym, List.tail_cons, ← hrest]
            exact parseredirs_refines hzero n t hps
          · rw [if_neg hclose, if_neg hclose]
            exact refines_error _
        · rw [if_neg hstart, if_neg hstart]
          exact refines_error _

end Refinement

/-! ## The zeros that `nulterminate` writes -/

section Nulterminate

variable {buf buf' buf'' : List UInt8} {ws ws' : List Word}

/-- The words are terminated, and nothing else is written. -/
structure Cut (ws : List Word) (buf buf' : List UInt8) : Prop where
  length : buf'.length = buf.length
  byte : ∀ j, buf'.getD j 0 = if j ∈ ws.map Word.eq then 0 else buf.getD j 0

theorem Cut.nil (buf : List UInt8) : Cut [] buf buf := ⟨rfl, fun _ => rfl⟩

theorem Cut.append (h : Cut ws buf buf') (h' : Cut ws' buf' buf'') :
    Cut (ws ++ ws') buf buf'' := by
  refine ⟨h'.length.trans h.length, fun j => ?_⟩
  rw [h'.byte, h.byte, List.map_append]
  by_cases hj : j ∈ ws.map Word.eq
  · rw [if_pos hj, if_pos (List.mem_append_left _ hj), ite_self]
  · rw [if_neg hj]
    by_cases hj' : j ∈ ws'.map Word.eq
    · rw [if_pos hj', if_pos (List.mem_append_right _ hj')]
    · rw [if_neg hj', if_neg fun hmem => (List.mem_append.1 hmem).elim hj hj']

theorem store0_cut {w : Word} (hw : w.eq < buf.length) :
    ∃ buf', store0 buf w.eq = .ok buf' ∧ Cut [w] buf buf' := by
  refine ⟨buf.set w.eq 0, if_pos hw, List.length_set, fun j => ?_⟩
  rw [List.map_singleton, List.getD_eq_getElem?_getD, List.getD_eq_getElem?_getD]
  by_cases hj : w.eq = j
  · rw [if_pos (List.mem_singleton.2 hj.symm), ← hj, List.getElem?_set_self hw]
    rfl
  · rw [if_neg fun hmem => hj (List.mem_singleton.1 hmem).symm, List.getElem?_set_ne hj]

theorem nulterminateArgs_cut (argv : List Word) (buf : List UInt8)
    (hargv : ∀ w ∈ argv, w.eq < buf.length) :
    ∃ buf', nulterminateArgs argv buf = .ok buf' ∧ Cut argv buf buf' := by
  induction argv generalizing buf with
  | nil => exact ⟨buf, rfl, .nil buf⟩
  | cons w argv ih =>
      obtain ⟨buf', hstore, hcut⟩ := store0_cut (hargv w List.mem_cons_self)
      obtain ⟨buf'', hargs, hcut'⟩ := ih buf' fun w' hw' => by
        rw [hcut.length]
        exact hargv w' (List.mem_cons_of_mem _ hw')
      refine ⟨buf'', ?_, hcut.append hcut'⟩
      rw [nulterminateArgs, hstore]
      exact hargs

/-- Two calls in turn. -/
theorem cut_bind {f g : List UInt8 → Parse (List UInt8)}
    (hf : ∃ buf', f buf = .ok buf' ∧ Cut ws buf buf')
    (hg : ∀ buf', buf'.length = buf.length → ∃ buf'', g buf' = .ok buf'' ∧ Cut ws' buf' buf'') :
    ∃ buf'', (f buf >>= g) = .ok buf'' ∧ Cut (ws ++ ws') buf buf'' := by
  obtain ⟨buf', hfirst, hcut⟩ := hf
  obtain ⟨buf'', hsecond, hcut'⟩ := hg buf' hcut.length
  refine ⟨buf'', ?_, hcut.append hcut'⟩
  rw [hfirst]
  exact hsecond

theorem nulterminate_cut (cmd : Cmd Word) (buf : List UInt8)
    (hwords : ∀ w ∈ cmd.words, w.eq < buf.length) :
    ∃ buf', nulterminate cmd buf = .ok buf' ∧ Cut cmd.words buf buf' := by
  induction cmd generalizing buf with
  | exec argv => exact nulterminateArgs_cut argv buf hwords
  | redir cmd file mode fd ih =>
      apply cut_bind (ih buf fun w hw => hwords w (List.mem_append_left _ hw))
      intro buf' hlength
      apply store0_cut
      rw [hlength]
      exact hwords file (List.mem_append_right _ List.mem_cons_self)
  | pipe left right ihleft ihright | list left right ihleft ihright =>
      apply cut_bind (ihleft buf fun w hw => hwords w (List.mem_append_left _ hw))
      intro buf' hlength
      exact ihright buf' fun w hw => hlength ▸ hwords w (List.mem_append_right _ hw)
  | back cmd ih => exact ih buf hwords

end Nulterminate

/-! ## The whole command -/

section Command

variable {text : List UInt8} {n : Nat}

/-- The bytes of a word token. -/
structure WordAt (text : List UInt8) (w : Word) : Prop where
  lt : w.q < w.eq
  scanned : Scanned text inWord w.q w.eq

theorem mem_remaining (hzero : 0 ∉ text) {s : Nat} (hs : s ≤ text.length) {w : Word}
    (hw : .word w ∈ remaining text s) : WordAt text w := by
  induction hleft : text.length - s using Nat.strongRecOn generalizing s with
  | ind left ih =>
      obtain ⟨g, hgot, h⟩ := gettoken_spec hzero hs
      rw [remaining_eq hzero hgot h] at hw
      by_cases hend : g.ret = 0
      · rw [if_pos hend] at hw
        cases hw
      · rw [if_neg hend] at hw
        rcases List.mem_cons.1 hw with htoken | hw
        · obtain ⟨ret, q, eq, ps⟩ := g
          have hat := h.token
          unfold Got.token at htoken
          dsimp only at htoken hat
          split at htoken
          · next hret =>
              cases htoken
              exact ⟨hat.lt hend, hat.scanned hret⟩
          · cases htoken
        · have hlt := h.lt hend
          have hle := h.le_length
          exact ih (text.length - g.ps) (by omega) hle hw rfl

theorem buffer_length (text : List UInt8) : (buffer text).length = text.length + 1 := by
  unfold buffer
  rw [List.length_append, List.length_singleton]

/-- What `parsecmd` does behind the parser of tokens. -/
theorem parsecmd_tokens (hzero : 0 ∉ text) (n : Nat) :
    parsecmd n (buffer text) = Tokens.parsecmd n (tokens text) >>= fun cmd =>
      nulterminate cmd (buffer text) >>= fun buf => .ok (cmd, buf) := by
  unfold parsecmd Tokens.parsecmd
  rw [strlen_buffer hzero]
  show (parseline (buffer text) text.length n 0 >>= _) = _
  rcases (parse_refines hzero n).1 0 (Nat.zero_le _) with
    ⟨t, s, hparse, hs, htokens⟩ | ⟨e, hparse, htokens⟩
  · have hlooks : Looks [] [] :=
      ⟨forall_of_all (by decide), forall_of_all (by decide), by decide⟩
    obtain ⟨s', hpeek, _, _, hend⟩ := peek_spec hlooks hzero hs
    rw [hparse]
    show (peek (buffer text) text.length s [] >>= _) = _
    rw [hpeek]
    show (if s' ≠ text.length then _ else _) = _
    unfold tokens
    rw [htokens]
    show _ = ((if remaining text s = [] then _ else _) >>= _)
    by_cases hnil : remaining text s = []
    · rw [if_neg (not_not.2 (hend.2 hnil)), if_pos hnil]
      rfl
    · rw [if_pos fun heq => hnil (hend.1 heq), if_neg hnil]
      rfl
  · rw [hparse]
    unfold tokens
    rw [htokens]
    rfl

/-- All words of a line are in the string. -/
theorem Line.wordAt (hzero : 0 ∉ text) {t : Cmd Word} (h : Line (tokens text) t) {w : Word}
    (hw : w ∈ t.words) : WordAt text w :=
  mem_remaining hzero (Nat.zero_le _) (mem_tokenWords.1 (h.words_perm.mem_iff.1 hw))

/-- An accepted command: the tree is that of its tokens, and the words are terminated. -/
theorem parsecmd_eq_ok (hzero : 0 ∉ text) (hn : 4 * text.length + 4 ≤ n) (t : Cmd Word)
    (buf : List UInt8) :
    parsecmd n (buffer text) = .ok (t, buf) ↔
      Line (tokens text) t ∧ nulterminate t (buffer text) = .ok buf := by
  have hlength := remaining_length hzero (Nat.zero_le text.length)
  have hn' : 4 * (tokens text).length + 4 ≤ n := by
    unfold tokens
    omega
  rw [parsecmd_tokens hzero, ← Tokens.parsecmd_eq_ok hn']
  constructor
  · intro h
    cases hparse : Tokens.parsecmd n (tokens text) with
    | error e =>
        rw [hparse] at h
        cases h
    | ok t' =>
        rw [hparse] at h
        change (nulterminate t' (buffer text) >>= _) = _ at h
        cases hbuf : nulterminate t' (buffer text) with
        | error e =>
            rw [hbuf] at h
            cases h
        | ok buf' =>
            rw [hbuf] at h
            cases h
            exact ⟨rfl, hbuf⟩
  · rintro ⟨hparse, hbuf⟩
    rw [hparse]
    show (nulterminate t (buffer text) >>= _) = _
    rw [hbuf]
    rfl

/-- The parser returns exactly for the lines of the grammar, with the tree of the line, and
panics about the syntax for all other strings. -/
theorem parsecmd_accepts (text : List UInt8) (hzero : 0 ∉ text) (n : Nat)
    (hn : 4 * text.length + 4 ≤ n) :
    (∀ t, (∃ buf, parsecmd n (buffer text) = .ok (t, buf)) ↔ Line (tokens text) t) ∧
      ((∀ t, ¬ Line (tokens text) t) →
        ∃ p, p ≠ .parseblock ∧ parsecmd n (buffer text) = .error (.panic p)) := by
  constructor
  · intro t
    constructor
    · rintro ⟨buf, hparse⟩
      exact ((parsecmd_eq_ok hzero hn t buf).1 hparse).1
    · intro hline
      obtain ⟨buf, hbuf, _⟩ := nulterminate_cut t (buffer text) fun w hw => by
        rw [buffer_length]
        exact Nat.lt_succ_of_le (hline.wordAt hzero hw).scanned.le_length
      exact ⟨buf, (parsecmd_eq_ok hzero hn t buf).2 ⟨hline, hbuf⟩⟩
  · intro hnone
    have hlength := remaining_length hzero (Nat.zero_le text.length)
    have hn' : 4 * (tokens text).length + 4 ≤ n := by
      unfold tokens
      omega
    obtain ⟨p, hp, hparse⟩ := Tokens.parsecmd_panics hn' hnone
    refine ⟨p, hp, ?_⟩
    rw [parsecmd_tokens hzero, hparse]
    rfl

/-- The command `a<b`. -/
theorem parsecmd_accepts_redirection :
    Line (tokens [97, 60, 98]) (.redir (.exec [⟨0, 1⟩]) ⟨2, 3⟩ O_RDONLY 0) :=
  ((parsecmd_accepts [97, 60, 98] (by decide) 16 (by decide)).1 _).1 ⟨[97, 0, 98, 0], rfl⟩

end Command

end OsWork.Ports.Shell
