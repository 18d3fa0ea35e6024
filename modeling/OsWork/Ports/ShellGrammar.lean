import Mathlib.Logic.Function.Iterate

/-!
# The grammar of commands in `sh.c`

A command line is a list of tokens: symbols, and words.  The grammar is the one that the
functions from `parseline` on follow,

    line := pipe {'&'} [';' line]
    pipe := exec ['|' pipe]
    exec := '(' line ')' {redir} | {redir} {word {redir}}
    redir := ('<' | '>' | '>>') word

with fewer than `MAXARGS` words in an `exec`.  What a word is does not matter here.  The
parser of this module works on the list of tokens and is refined by the one on characters.

## Main results

* `Tokens.parse_sound` — with enough rounds the parser panics or finds a derivation.
* `Line.parse` — the parser finds what the grammar derives.
* `Tokens.parsecmd_eq_ok`, `Tokens.parsecmd_panics` — both together, for a whole command.
-/

namespace OsWork.Ports.Shell

/-! ## Commands and tokens -/

def bar : UInt8 := 124

def lparen : UInt8 := 40

def rparen : UInt8 := 41

def semi : UInt8 := 59

def amp : UInt8 := 38

def less : UInt8 := 60

def greater : UInt8 := 62

/-- `gettoken` returns '+' for '>>'. -/
def plus : UInt8 := 43

def MAXARGS : Nat := 10

def O_RDONLY : Nat := 0

def O_WRONLY : Nat := 1

def O_CREATE : Nat := 512

/-- `struct cmd`, of each type. -/
inductive Cmd (W : Type)
  | exec (argv : List W)
  | redir (cmd : Cmd W) (file : W) (mode fd : Nat)
  | pipe (left right : Cmd W)
  | list (left right : Cmd W)
  | back (cmd : Cmd W)
deriving DecidableEq

inductive Token (W : Type)
  | sym (c : UInt8)
  | word (w : W)
deriving DecidableEq

variable {W : Type}

/-- The node for the token `tok` in `parseredirs`. -/
def redirNode (tok : UInt8) (file : W) (cmd : Cmd W) : Cmd W :=
  if tok = less then .redir cmd file O_RDONLY 0
  else if tok = greater then .redir cmd file (O_WRONLY ||| O_CREATE) 1
  else if tok = plus then .redir cmd file (O_WRONLY ||| O_CREATE) 1
  else cmd

/-- A word is added to the command that all redirections are of. -/
def addArg : Cmd W → W → Cmd W
  | .exec argv, w => .exec (argv ++ [w])
  | .redir cmd file mode fd, w => .redir (addArg cmd w) file mode fd
  | cmd, _ => cmd

/-! ## The grammar -/

def redirOps : List UInt8 := [less, greater, plus]

/-- A redirection. -/
structure Redir (W : Type) where
  op : UInt8
  file : W
  op_mem : op ∈ redirOps

/-- A word, and the redirections behind it. -/
structure Arg (W : Type) where
  word : W
  redirs : List (Redir W)

def Redir.tokens (r : Redir W) : List (Token W) := [.sym r.op, .word r.file]

def redirTokens (rs : List (Redir W)) : List (Token W) := rs.flatMap Redir.tokens

def Arg.tokens (g : Arg W) : List (Token W) := .word g.word :: redirTokens g.redirs

def argTokens (gs : List (Arg W)) : List (Token W) := gs.flatMap Arg.tokens

/-- The last redirection is the outermost. -/
def wrap (cmd : Cmd W) (rs : List (Redir W)) : Cmd W :=
  rs.foldl (fun cmd r => redirNode r.op r.file cmd) cmd

mutual

/-- A line with its tree. -/
inductive Line : List (Token W) → Cmd W → Prop
  | last {ts : List (Token W)} {t : Cmd W} (n : Nat) : Pipe ts t →
      Line (ts ++ List.replicate n (.sym amp)) (Cmd.back^[n] t)
  | seq {ts ts' : List (Token W)} {t t' : Cmd W} (n : Nat) : Pipe ts t → Line ts' t' →
      Line (ts ++ (List.replicate n (.sym amp) ++ .sym semi :: ts')) (.list (Cmd.back^[n] t) t')

inductive Pipe : List (Token W) → Cmd W → Prop
  | last {ts : List (Token W)} {t : Cmd W} : Exec ts t → Pipe ts t
  | bar {ts ts' : List (Token W)} {t t' : Cmd W} : Exec ts t → Pipe ts' t' →
      Pipe (ts ++ .sym bar :: ts') (.pipe t t')

inductive Exec : List (Token W) → Cmd W → Prop
  | block {ts : List (Token W)} {t : Cmd W} (rs : List (Redir W)) : Line ts t →
      Exec (.sym lparen :: (ts ++ .sym rparen :: redirTokens rs)) (wrap t rs)
  | words (rs : List (Redir W)) (gs : List (Arg W)) : gs.length < MAXARGS →
      Exec (redirTokens rs ++ argTokens gs)
        (wrap (.exec (gs.map Arg.word)) (rs ++ gs.flatMap Arg.redirs))

end

/-! ## A parser of tokens -/

/-- The calls of `panic` in the parser. -/
inductive Panic
  | missingFile
  | missingParen
  | tooManyArgs
  | parseblock
  | syntaxError
deriving DecidableEq

def Panic.text : Panic → String
  | .missingFile => "missing file for redirection"
  | .missingParen => "syntax - missing )"
  | .tooManyArgs => "too many args"
  | .parseblock => "parseblock"
  | .syntaxError => "syntax"

/-- Why a call does not return: it is not done after the given rounds, it reads outside the
string, or it panics. -/
inductive Stop
  | rounds
  | outside
  | panic (p : Panic)
deriving DecidableEq

abbrev Parse (A : Type) := Except Stop A

/-- The next token is one of these symbols. -/
def starts (cs : List UInt8) : List (Token W) → Bool
  | .sym c :: _ => decide (c ∈ cs)
  | _ => false

namespace Tokens

def parseredirs : Nat → Cmd W → List (Token W) → Parse (Cmd W × List (Token W))
  | 0, _, _ => .error .rounds
  | n + 1, cmd, ts =>
      if starts redirOps ts then
        match ts with
        | .sym c :: .word f :: rest => parseredirs n (redirNode c f cmd) rest
        | _ => .error (.panic .missingFile)
      else .ok (cmd, ts)

def parseargs : Nat → Cmd W → Nat → List (Token W) → Parse (Cmd W × List (Token W))
  | 0, _, _, _ => .error .rounds
  | _ + 1, cmd, _, [] => .ok (cmd, [])
  | _ + 1, cmd, _, .sym c :: rest =>
      if c ∈ [bar, rparen, amp, semi] then .ok (cmd, .sym c :: rest)
      else .error (.panic .syntaxError)
  | n + 1, cmd, argc, .word w :: rest =>
      if MAXARGS ≤ argc + 1 then .error (.panic .tooManyArgs)
      else do
        let (cmd, rest) ← parseredirs n (addArg cmd w) rest
        parseargs n cmd (argc + 1) rest

def parsebacks : Nat → Cmd W → List (Token W) → Parse (Cmd W × List (Token W))
  | 0, _, _ => .error .rounds
  | n + 1, cmd, ts => if starts [amp] ts then parsebacks n (.back cmd) ts.tail else .ok (cmd, ts)

mutual

def parseline : Nat → List (Token W) → Parse (Cmd W × List (Token W))
  | 0, _ => .error .rounds
  | n + 1, ts => do
      let (cmd, rest) ← parsepipe n ts
      let (cmd, rest) ← parsebacks n cmd rest
      if starts [semi] rest then do
        let (right, rest) ← parseline n rest.tail
        .ok (.list cmd right, rest)
      else .ok (cmd, rest)
termination_by structural n => n

def parsepipe : Nat → List (Token W) → Parse (Cmd W × List (Token W))
  | 0, _ => .error .rounds
  | n + 1, ts => do
      let (cmd, rest) ← parseexec n ts
      if starts [bar] rest then do
        let (right, rest) ← parsepipe n rest.tail
        .ok (.pipe cmd right, rest)
      else .ok (cmd, rest)
termination_by structural n => n

def parseexec : Nat → List (Token W) → Parse (Cmd W × List (Token W))
  | 0, _ => .error .rounds
  | n + 1, ts =>
      if starts [lparen] ts then parseblock n ts
      else do
        let (cmd, rest) ← parseredirs n (.exec []) ts
        parseargs n cmd 0 rest
termination_by structural n => n

def parseblock : Nat → List (Token W) → Parse (Cmd W × List (Token W))
  | 0, _ => .error .rounds
  | n + 1, ts =>
      if starts [lparen] ts then do
        let (cmd, rest) ← parseline n ts.tail
        if starts [rparen] rest then parseredirs n cmd rest.tail
        else .error (.panic .missingParen)
      else .error (.panic .parseblock)
termination_by structural n => n

end

def parsecmd (n : Nat) (ts : List (Token W)) : Parse (Cmd W) := do
  let (cmd, rest) ← parseline n ts
  if rest = [] then .ok cmd else .error (.panic .syntaxError)

end Tokens

/-! ## Redirections and words -/

section Lists

variable {cmd : Cmd W} {ts rest : List (Token W)} {cs : List UInt8}

/-- What is checked for each symbol of a list. -/
theorem forall_of_all {p : UInt8 → Prop} [DecidablePred p]
    (h : cs.all (fun c => decide (p c)) = true) : ∀ c ∈ cs, p c :=
  fun c hc => of_decide_eq_true (List.all_eq_true.1 h c hc)

/-- The rest is empty, or starts with one of the symbols. -/
def Follow (cs : List UInt8) (rest : List (Token W)) : Prop := rest = [] ∨ starts cs rest = true

theorem Follow.starts_false {cs' : List UInt8} (h : Follow cs rest)
    (hdisjoint : ∀ c ∈ cs, c ∉ cs') : starts cs' rest = false := by
  rcases h with rfl | h
  · rfl
  · cases rest with
    | nil => rfl
    | cons t rest =>
        cases t with
        | word w => rfl
        | sym c =>
            have hc : c ∈ cs := of_decide_eq_true h
            exact decide_eq_false (hdisjoint c hc)

theorem Follow.mono {cs' : List UInt8} (h : Follow cs rest) (hsub : ∀ c ∈ cs, c ∈ cs') :
    Follow cs' rest := by
  rcases h with rfl | h
  · exact .inl rfl
  · right
    cases rest with
    | nil => exact h
    | cons t rest =>
        cases t with
        | word w => cases h
        | sym c => exact decide_eq_true (hsub c (of_decide_eq_true h))

theorem follow_cons {c : UInt8} (hc : c ∈ cs) (rest : List (Token W)) :
    Follow cs (.sym c :: rest) := .inr (decide_eq_true hc)

theorem starts_singleton {c : UInt8} {ts : List (Token W)} (h : starts [c] ts = true) :
    ∃ rest, ts = .sym c :: rest := by
  cases ts with
  | nil => cases h
  | cons t rest =>
      cases t with
      | word w => cases h
      | sym c' =>
          have hc : c' ∈ [c] := of_decide_eq_true h
          exact ⟨rest, by rw [List.mem_singleton.1 hc]⟩

theorem addArg_redirNode (op : UInt8) (f : W) (cmd : Cmd W) (w : W) :
    addArg (redirNode op f cmd) w = redirNode op f (addArg cmd w) := by
  unfold redirNode
  split
  · rfl
  · split
    · rfl
    · split
      · rfl
      · rfl

/-- Redirections before a word and behind it come to the same. -/
theorem addArg_wrap (cmd : Cmd W) (rs : List (Redir W)) (w : W) :
    addArg (wrap cmd rs) w = wrap (addArg cmd w) rs := by
  unfold wrap
  induction rs generalizing cmd with
  | nil => rfl
  | cons r rs ih => rw [List.foldl_cons, List.foldl_cons, ih, addArg_redirNode]

theorem wrap_append (cmd : Cmd W) (rs rs' : List (Redir W)) :
    wrap cmd (rs ++ rs') = wrap (wrap cmd rs) rs' := List.foldl_append

/-- The call panics about the syntax, or returns something with the property. -/
def Outcome (r : Parse (Cmd W × List (Token W))) (P : Cmd W → List (Token W) → Prop) : Prop :=
  (∃ t rest, r = .ok (t, rest) ∧ P t rest) ∨ ∃ p, r = .error (.panic p) ∧ p ≠ .parseblock

/-- What comes behind a call that panics or returns. -/
theorem Outcome.bind {r : Parse (Cmd W × List (Token W))} {P Q : Cmd W → List (Token W) → Prop}
    {f : Cmd W × List (Token W) → Parse (Cmd W × List (Token W))} (h : Outcome r P)
    (hf : ∀ t rest, P t rest → Outcome (f (t, rest)) Q) : Outcome (r >>= f) Q := by
  rcases h with ⟨t, rest, rfl, hP⟩ | ⟨p, rfl, hp⟩
  · exact hf t rest hP
  · exact .inr ⟨p, rfl, hp⟩

theorem Outcome.mono {r : Parse (Cmd W × List (Token W))} {P Q : Cmd W → List (Token W) → Prop}
    (h : Outcome r P) (himp : ∀ t rest, P t rest → Q t rest) : Outcome r Q := by
  rcases h with ⟨t, rest, hr, hP⟩ | hpanic
  · exact .inl ⟨t, rest, hr, himp t rest hP⟩
  · exact .inr hpanic

theorem redirTokens_cons (r : Redir W) (rs : List (Redir W)) :
    redirTokens (r :: rs) = .sym r.op :: .word r.file :: redirTokens rs := rfl

theorem redirTokens_length (rs : List (Redir W)) : rs.length ≤ (redirTokens rs).length := by
  induction rs with
  | nil => exact Nat.le_refl 0
  | cons r rs ih =>
      rw [redirTokens_cons]
      simp only [List.length_cons]
      omega

theorem argTokens_cons (g : Arg W) (gs : List (Arg W)) :
    argTokens (g :: gs) = .word g.word :: (redirTokens g.redirs ++ argTokens gs) := rfl

namespace Tokens

theorem parseredirs_sound (n : Nat) (cmd : Cmd W) (ts : List (Token W)) (hn : ts.length < n) :
    Outcome (parseredirs n cmd ts) fun t rest => starts redirOps rest = false ∧
      ∃ rs, ts = redirTokens rs ++ rest ∧ t = wrap cmd rs := by
  induction n generalizing cmd ts with
  | zero => exact absurd hn (Nat.not_lt_zero _)
  | succ n ih =>
      unfold parseredirs
      by_cases hstart : starts redirOps ts = true
      · rw [if_pos hstart]
        cases ts with
        | nil => cases hstart
        | cons tok ts =>
            cases tok with
            | word w => cases hstart
            | sym c =>
                have hc : c ∈ redirOps := of_decide_eq_true hstart
                cases ts with
                | nil => exact .inr ⟨_, rfl, by decide⟩
                | cons tok ts =>
                    cases tok with
                    | sym c' => exact .inr ⟨_, rfl, by decide⟩
                    | word f =>
                        simp only [List.length_cons] at hn
                        apply (ih (redirNode c f cmd) ts (by omega)).mono
                        rintro t rest ⟨hrest, rs, rfl, rfl⟩
                        exact ⟨hrest, ⟨c, f, hc⟩ :: rs, rfl, rfl⟩
      · rw [if_neg hstart]
        exact .inl ⟨cmd, ts, rfl, eq_false_of_ne_true hstart, [], rfl, rfl⟩

theorem parseredirs_redirTokens (rs : List (Redir W)) (n : Nat) (cmd : Cmd W)
    (rest : List (Token W)) (hn : rs.length < n) (hrest : starts redirOps rest = false) :
    parseredirs n cmd (redirTokens rs ++ rest) = .ok (wrap cmd rs, rest) := by
  induction rs generalizing n cmd with
  | nil =>
      obtain ⟨n, rfl⟩ := Nat.exists_eq_succ_of_ne_zero (Nat.ne_of_gt hn)
      show parseredirs (n + 1) cmd rest = _
      unfold parseredirs
      rw [if_neg (ne_true_of_eq_false hrest)]
      rfl
  | cons r rs ih =>
      obtain ⟨n, rfl⟩ := Nat.exists_eq_succ_of_ne_zero (Nat.ne_of_gt (Nat.zero_lt_of_lt hn))
      have hstart : starts redirOps (redirTokens (r :: rs) ++ rest) = true :=
        decide_eq_true r.op_mem
      rw [redirTokens_cons, List.cons_append, List.cons_append] at hstart ⊢
      unfold parseredirs
      rw [if_pos hstart]
      exact ih n (redirNode r.op r.file cmd) (Nat.lt_of_succ_lt_succ hn)

/-- The symbols that may follow the words of a command. -/
def execFollow : List UInt8 := [bar, rparen, amp, semi]

theorem parseargs_sound (n argc : Nat) (argv : List W) (rs : List (Redir W))
    (ts : List (Token W)) (hn : ts.length < n) (hargc : argv.length = argc)
    (hmax : argc < MAXARGS) :
    Outcome (parseargs n (wrap (.exec argv) rs) argc ts) fun t rest =>
      ∃ gs : List (Arg W), ts = argTokens gs ++ rest ∧ argc + gs.length < MAXARGS ∧
        t = wrap (.exec (argv ++ gs.map Arg.word)) (rs ++ gs.flatMap Arg.redirs) := by
  induction n generalizing argc argv rs ts with
  | zero => exact absurd hn (Nat.not_lt_zero _)
  | succ n ih =>
      cases ts with
      | nil =>
          refine .inl ⟨_, [], rfl, [], rfl, hmax, ?_⟩
          rw [List.map_nil, List.append_nil, List.flatMap_nil, List.append_nil]
      | cons tok ts =>
          cases tok with
          | sym c =>
              rw [parseargs]
              split
              · refine .inl ⟨_, _, rfl, [], rfl, hmax, ?_⟩
                rw [List.map_nil, List.append_nil, List.flatMap_nil, List.append_nil]
              · exact .inr ⟨_, rfl, by decide⟩
          | word w =>
              rw [parseargs]
              simp only [List.length_cons] at hn
              by_cases htoo : MAXARGS ≤ argc + 1
              · rw [if_pos htoo]
                exact .inr ⟨_, rfl, by decide⟩
              · rw [if_neg htoo, addArg_wrap]
                apply (parseredirs_sound n _ ts (by omega)).bind
                rintro t rest ⟨_, rs', rfl, rfl⟩
                rw [← wrap_append]
                have hlen : rest.length < n := by
                  rw [List.length_append] at hn
                  omega
                apply (ih (argc + 1) (argv ++ [w]) (rs ++ rs') rest hlen
                  (by rw [List.length_append, List.length_singleton, hargc]) (by omega)).mono
                rintro t rest ⟨gs, rfl, hgs, rfl⟩
                refine ⟨⟨w, rs'⟩ :: gs, ?_, ?_, ?_⟩
                · rw [argTokens_cons, List.cons_append, List.append_assoc]
                · rw [List.length_cons]
                  omega
                · rw [List.map_cons, List.flatMap_cons, List.append_assoc, List.append_assoc]
                  rfl

theorem parseargs_argTokens (gs : List (Arg W)) (n argc : Nat) (argv : List W)
    (rs : List (Redir W)) (rest : List (Token W)) (hn : (argTokens gs ++ rest).length < n)
    (hmax : argc + gs.length < MAXARGS) (hrest : Follow execFollow rest) :
    parseargs n (wrap (.exec argv) rs) argc (argTokens gs ++ rest) =
      .ok (wrap (.exec (argv ++ gs.map Arg.word)) (rs ++ gs.flatMap Arg.redirs), rest) := by
  induction gs generalizing n argc argv rs with
  | nil =>
      obtain ⟨n, rfl⟩ := Nat.exists_eq_succ_of_ne_zero (Nat.ne_of_gt (Nat.zero_lt_of_lt hn))
      rw [List.map_nil, List.append_nil, List.flatMap_nil, List.append_nil]
      show parseargs (n + 1) (wrap (.exec argv) rs) argc rest = _
      rcases hrest with rfl | hrest
      · rfl
      · cases rest with
        | nil => cases hrest
        | cons tok rest =>
            cases tok with
            | word w => cases hrest
            | sym c =>
                have hc : c ∈ [bar, rparen, amp, semi] := of_decide_eq_true hrest
                rw [parseargs, if_pos hc]
  | cons g gs ih =>
      obtain ⟨n, rfl⟩ := Nat.exists_eq_succ_of_ne_zero (Nat.ne_of_gt (Nat.zero_lt_of_lt hn))
      rw [argTokens_cons, List.cons_append, List.append_assoc] at hn ⊢
      simp only [List.length_cons, List.length_append] at hn
      rw [List.length_cons] at hmax
      have hfollow : starts redirOps (argTokens gs ++ rest) = false := by
        cases gs with
        | nil => exact hrest.starts_false (forall_of_all (by decide))
        | cons g gs => rfl
      have hredirs := redirTokens_length g.redirs
      rw [parseargs, if_neg (by omega), addArg_wrap,
        parseredirs_redirTokens g.redirs n _ _ (by omega) hfollow, ← wrap_append]
      show parseargs n (wrap (.exec (argv ++ [g.word])) (rs ++ g.redirs)) (argc + 1)
        (argTokens gs ++ rest) = _
      rw [ih n (argc + 1) (argv ++ [g.word]) (rs ++ g.redirs)
        (by rw [List.length_append]; omega) (by omega), List.map_cons, List.flatMap_cons,
        List.append_assoc, List.append_assoc]
      rfl

theorem parsebacks_sound (n : Nat) (cmd : Cmd W) (ts : List (Token W)) (hn : ts.length < n) :
    Outcome (parsebacks n cmd ts) fun t rest => starts [amp] rest = false ∧
      ∃ k, ts = List.replicate k (.sym amp) ++ rest ∧ t = Cmd.back^[k] cmd := by
  induction n generalizing cmd ts with
  | zero => exact absurd hn (Nat.not_lt_zero _)
  | succ n ih =>
      unfold parsebacks
      by_cases hstart : starts [amp] ts = true
      · obtain ⟨ts, rfl⟩ := starts_singleton hstart
        rw [if_pos hstart]
        apply (ih (.back cmd) ts (Nat.lt_of_succ_lt_succ hn)).mono
        rintro t rest ⟨hrest, k, rfl, rfl⟩
        exact ⟨hrest, k + 1, rfl, rfl⟩
      · rw [if_neg hstart]
        exact .inl ⟨cmd, ts, rfl, eq_false_of_ne_true hstart, 0, rfl, rfl⟩

theorem parsebacks_replicate (k n : Nat) (cmd : Cmd W) (rest : List (Token W)) (hn : k < n)
    (hrest : starts [amp] rest = false) :
    parsebacks n cmd (List.replicate k (.sym amp) ++ rest) = .ok (Cmd.back^[k] cmd, rest) := by
  induction k generalizing n cmd with
  | zero =>
      obtain ⟨n, rfl⟩ := Nat.exists_eq_succ_of_ne_zero (Nat.ne_of_gt hn)
      show parsebacks (n + 1) cmd rest = _
      unfold parsebacks
      rw [if_neg (ne_true_of_eq_false hrest)]
      rfl
  | succ k ih =>
      obtain ⟨n, rfl⟩ := Nat.exists_eq_succ_of_ne_zero (Nat.ne_of_gt (Nat.zero_lt_of_lt hn))
      exact ih n (.back cmd) (Nat.lt_of_succ_lt_succ hn)

end Tokens

end Lists

/-! ## The parser accepts the grammar -/

/-- What is read derives the tree. -/
def Derives (D : List (Token W) → Cmd W → Prop) (ts : List (Token W)) (t : Cmd W)
    (rest : List (Token W)) : Prop := ∃ used, ts = used ++ rest ∧ D used t

theorem Derives.length_le {D : List (Token W) → Cmd W → Prop} {ts rest : List (Token W)}
    {t : Cmd W} (h : Derives D ts t rest) : rest.length ≤ ts.length := by
  obtain ⟨used, rfl, _⟩ := h
  rw [List.length_append]
  exact Nat.le_add_left _ _

namespace Tokens

/-- A line needs four rounds for each token: one for each function on the way to a
parenthesis. -/
theorem parse_sound (n : Nat) :
    (∀ ts : List (Token W), 4 * ts.length + 4 ≤ n →
      Outcome (parseline n ts) (Derives Line ts)) ∧
    (∀ ts : List (Token W), 4 * ts.length + 3 ≤ n →
      Outcome (parsepipe n ts) (Derives Pipe ts)) ∧
    (∀ ts : List (Token W), 4 * ts.length + 2 ≤ n →
      Outcome (parseexec n ts) (Derives Exec ts)) ∧
    (∀ ts : List (Token W), starts [lparen] ts = true → 4 * ts.length + 1 ≤ n →
      Outcome (parseblock n ts) (Derives Exec ts)) := by
  induction n with
  | zero =>
      refine ⟨fun ts hn => ?_, fun ts hn => ?_, fun ts hn => ?_, fun ts _ hn => ?_⟩
      all_goals exact absurd hn (Nat.not_succ_le_zero _)
  | succ n ih =>
      obtain ⟨hline, hpipe, hexec, hblock⟩ := ih
      refine ⟨fun ts hn => ?line, fun ts hn => ?pipe, fun ts hn => ?exec,
        fun ts hstart hn => ?block⟩
      case line =>
        unfold parseline
        apply (hpipe ts (by omega)).bind
        intro t rest hderives
        have hrest := hderives.length_le
        apply (parsebacks_sound n t rest (by omega)).bind
        rintro t' rest' ⟨_, k, rfl, rfl⟩
        obtain ⟨used, rfl, hused⟩ := hderives
        dsimp only
        by_cases hsemi : starts [semi] rest' = true
        · obtain ⟨rest', rfl⟩ := starts_singleton hsemi
          rw [if_pos hsemi]
          simp only [List.length_append, List.length_cons] at hn hrest
          apply (hline rest' (by omega)).bind
          rintro right rest ⟨used', rfl, hused'⟩
          refine .inl ⟨_, _, rfl, _, ?_, .seq k hused hused'⟩
          rw [List.append_assoc, List.append_assoc, List.cons_append]
        · rw [if_neg hsemi]
          exact .inl ⟨_, _, rfl, _, (List.append_assoc _ _ _).symm, .last k hused⟩
      case pipe =>
        unfold parsepipe
        apply (hexec ts (by omega)).bind
        rintro t rest ⟨used, rfl, hused⟩
        dsimp only
        by_cases hbar : starts [bar] rest = true
        · obtain ⟨rest, rfl⟩ := starts_singleton hbar
          rw [if_pos hbar]
          simp only [List.length_append, List.length_cons] at hn
          apply (hpipe rest (by omega)).bind
          rintro right rest ⟨used', rfl, hused'⟩
          refine .inl ⟨_, _, rfl, _, ?_, .bar hused hused'⟩
          rw [List.append_assoc, List.cons_append]
        · rw [if_neg hbar]
          exact .inl ⟨_, _, rfl, _, rfl, .last hused⟩
      case exec =>
        unfold parseexec
        by_cases hparen : starts [lparen] ts = true
        · rw [if_pos hparen]
          exact hblock ts hparen (by omega)
        · rw [if_neg hparen]
          apply (parseredirs_sound n (.exec []) ts (by omega)).bind
          rintro t rest ⟨_, rs, rfl, rfl⟩
          rw [List.length_append] at hn
          apply (parseargs_sound n 0 [] rs rest (by omega) rfl (by decide)).mono
          rintro t rest ⟨gs, rfl, hgs, rfl⟩
          rw [Nat.zero_add] at hgs
          exact ⟨_, (List.append_assoc _ _ _).symm, .words rs gs hgs⟩
      case block =>
        obtain ⟨ts, rfl⟩ := starts_singleton hstart
        unfold parseblock
        rw [if_pos hstart]
        rw [List.length_cons] at hn
        apply (hline ts (by omega)).bind
        rintro t rest ⟨used, rfl, hused⟩
        dsimp only
        by_cases hparen : starts [rparen] rest = true
        · obtain ⟨rest, rfl⟩ := starts_singleton hparen
          rw [if_pos hparen]
          simp only [List.length_append, List.length_cons] at hn
          apply (parseredirs_sound n t rest (by omega)).mono
          rintro t' rest' ⟨_, rs, rfl, rfl⟩
          refine ⟨_, ?_, .block rs hused⟩
          rw [List.cons_append, List.append_assoc, List.cons_append]
        · rw [if_neg hparen]
          exact .inr ⟨_, rfl, by decide⟩

end Tokens

section Derivations

open Tokens

mutual

theorem Line.parse {used : List (Token W)} {t : Cmd W} (h : Line used t) (n : Nat)
    (rest : List (Token W)) (hn : 4 * (used ++ rest).length + 4 ≤ n)
    (hrest : Follow [rparen] rest) : parseline n (used ++ rest) = .ok (t, rest) := by
  obtain ⟨n, rfl⟩ := Nat.exists_eq_succ_of_ne_zero (Nat.ne_of_gt (Nat.lt_of_lt_of_le (by omega) hn))
  unfold parseline
  cases h with
  | @last ts t k hpipe =>
      rw [List.append_assoc] at hn ⊢
      have hfollow : Follow [rparen, amp, semi] (List.replicate k (.sym amp) ++ rest) := by
        cases k with
        | zero => exact hrest.mono (forall_of_all (by decide))
        | succ k => exact follow_cons (by decide) _
      rw [hpipe.parse n _ (by omega) hfollow]
      simp only [List.length_append, List.length_replicate] at hn
      show (parsebacks n t (List.replicate k (.sym amp) ++ rest) >>= _) = _
      rw [parsebacks_replicate k n t rest (by omega)
        (hrest.starts_false (forall_of_all (by decide)))]
      show (if starts [semi] rest = true then _ else _) = _
      rw [if_neg (ne_true_of_eq_false (hrest.starts_false (forall_of_all (by decide))))]
  | @seq ts ts' t t' k hpipe hline =>
      rw [List.append_assoc, List.append_assoc, List.cons_append] at hn ⊢
      have hfollow : Follow [rparen, amp, semi]
          (List.replicate k (.sym amp) ++ .sym semi :: (ts' ++ rest)) := by
        cases k with
        | zero | succ k => exact follow_cons (by decide) _
      rw [hpipe.parse n _ (by omega) hfollow]
      simp only [List.length_append, List.length_replicate, List.length_cons] at hn
      show (parsebacks n t (List.replicate k (.sym amp) ++ .sym semi :: (ts' ++ rest)) >>= _) = _
      rw [parsebacks_replicate k n t _ (by omega) rfl]
      show (parseline n (ts' ++ rest) >>= _) = _
      rw [hline.parse n rest (by rw [List.length_append]; omega) hrest]
      rfl

theorem Pipe.parse {used : List (Token W)} {t : Cmd W} (h : Pipe used t) (n : Nat)
    (rest : List (Token W)) (hn : 4 * (used ++ rest).length + 3 ≤ n)
    (hrest : Follow [rparen, amp, semi] rest) : parsepipe n (used ++ rest) = .ok (t, rest) := by
  obtain ⟨n, rfl⟩ := Nat.exists_eq_succ_of_ne_zero (Nat.ne_of_gt (Nat.lt_of_lt_of_le (by omega) hn))
  unfold parsepipe
  cases h with
  | last hexec =>
      rw [hexec.parse n rest (by omega) (hrest.mono (forall_of_all (by decide)))]
      show (if starts [bar] rest = true then _ else _) = _
      rw [if_neg (ne_true_of_eq_false (hrest.starts_false (forall_of_all (by decide))))]
  | @bar ts ts' t t' hexec hpipe =>
      rw [List.append_assoc, List.cons_append] at hn ⊢
      rw [hexec.parse n _ (by omega) (follow_cons (by decide) _)]
      simp only [List.length_append, List.length_cons] at hn
      show (parsepipe n (ts' ++ rest) >>= _) = _
      rw [hpipe.parse n rest (by rw [List.length_append]; omega) hrest]
      rfl

theorem Exec.parse {used : List (Token W)} {t : Cmd W} (h : Exec used t) (n : Nat)
    (rest : List (Token W)) (hn : 4 * (used ++ rest).length + 2 ≤ n)
    (hrest : Follow execFollow rest) : parseexec n (used ++ rest) = .ok (t, rest) := by
  obtain ⟨n, rfl⟩ := Nat.exists_eq_succ_of_ne_zero (Nat.ne_of_gt (Nat.lt_of_lt_of_le (by omega) hn))
  have hredir : starts redirOps rest = false := hrest.starts_false (forall_of_all (by decide))
  unfold parseexec
  cases h with
  | @block ts t rs hline =>
      obtain ⟨n, rfl⟩ := Nat.exists_eq_succ_of_ne_zero
        (Nat.ne_of_gt (Nat.lt_of_lt_of_le (by omega) (Nat.le_of_succ_le_succ hn)))
      rw [List.cons_append, List.append_assoc, List.cons_append, List.length_cons] at hn
      show parseblock (n + 1) (.sym lparen :: (ts ++ .sym rparen :: redirTokens rs ++ rest)) = _
      rw [List.append_assoc, List.cons_append]
      unfold parseblock
      show (parseline n (ts ++ .sym rparen :: (redirTokens rs ++ rest)) >>= _) = _
      rw [hline.parse n _ (by omega) (follow_cons (by decide) _)]
      simp only [List.length_append, List.length_cons] at hn
      show parseredirs n t (redirTokens rs ++ rest) = _
      have hlen := redirTokens_length rs
      exact parseredirs_redirTokens rs n t rest (by omega) hredir
  | words rs gs hgs =>
      rw [List.append_assoc] at hn ⊢
      have hfollow : starts redirOps (argTokens gs ++ rest) = false := by
        cases gs with
        | nil => exact hredir
        | cons g gs => rfl
      have hparen : starts [lparen] (redirTokens rs ++ (argTokens gs ++ rest)) = false := by
        cases rs with
        | nil =>
            cases gs with
            | nil => exact hrest.starts_false (forall_of_all (by decide))
            | cons g gs => rfl
        | cons r rs =>
            have hop : ∀ c ∈ redirOps, c ∉ [lparen] := forall_of_all (by decide)
            exact decide_eq_false (hop r.op r.op_mem)
      have hlen := redirTokens_length rs
      simp only [List.length_append] at hn
      rw [if_neg (ne_true_of_eq_false hparen),
        parseredirs_redirTokens rs n _ _ (by omega) hfollow]
      exact parseargs_argTokens gs n 0 [] rs rest (by rw [List.length_append]; omega)
        (by omega) hrest

end

end Derivations

namespace Tokens

variable {n : Nat} {ts : List (Token W)}

/-- The parser accepts what is a line, with the tree of the line. -/
theorem parsecmd_eq_ok (hn : 4 * ts.length + 4 ≤ n) (t : Cmd W) :
    parsecmd n ts = .ok t ↔ Line ts t := by
  constructor
  · intro h
    unfold parsecmd at h
    rcases (parse_sound n).1 ts hn with ⟨t', rest, hparse, used, rfl, hused⟩ | ⟨p, hparse, _⟩
    · rw [hparse] at h
      change (if rest = [] then Except.ok t' else _) = _ at h
      split at h
      · next hrest =>
          cases h
          rw [hrest, List.append_nil]
          exact hused
      · cases h
    · rw [hparse] at h
      cases h
  · intro h
    have hparse := h.parse n [] (by rw [List.append_nil]; exact hn) (.inl rfl)
    rw [List.append_nil] at hparse
    unfold parsecmd
    rw [hparse]
    rfl

/-- What is not a line is a panic about the syntax. -/
theorem parsecmd_panics (hn : 4 * ts.length + 4 ≤ n) (h : ∀ t, ¬ Line ts t) :
    ∃ p, p ≠ .parseblock ∧ parsecmd n ts = .error (.panic p) := by
  rcases (parse_sound n).1 ts hn with ⟨t, rest, hparse, used, rfl, hused⟩ | ⟨p, hparse, hp⟩
  · refine ⟨.syntaxError, by decide, ?_⟩
    unfold parsecmd
    rw [hparse]
    show (if rest = [] then Except.ok t else _) = _
    rw [if_neg]
    rintro rfl
    rw [List.append_nil] at h
    exact h t hused
  · refine ⟨p, hp, ?_⟩
    unfold parsecmd
    rw [hparse]
    rfl

end Tokens

/-! ## The words of a tree -/

/-- The words of a tree, in the order in which `nulterminate` comes to them. -/
def Cmd.words : Cmd W → List W
  | .exec argv => argv
  | .redir cmd file _ _ => cmd.words ++ [file]
  | .pipe left right => left.words ++ right.words
  | .list left right => left.words ++ right.words
  | .back cmd => cmd.words

def Token.word? : Token W → Option W
  | .sym _ => none
  | .word w => some w

def tokenWords (ts : List (Token W)) : List W := ts.filterMap Token.word?

theorem tokenWords_append (ts ts' : List (Token W)) :
    tokenWords (ts ++ ts') = tokenWords ts ++ tokenWords ts' := List.filterMap_append

theorem tokenWords_replicate (k : Nat) (c : UInt8) :
    tokenWords (List.replicate k (.sym c : Token W)) = [] := by
  induction k with
  | zero => rfl
  | succ k ih => exact ih

theorem mem_tokenWords {ts : List (Token W)} {w : W} : w ∈ tokenWords ts ↔ .word w ∈ ts := by
  unfold tokenWords
  rw [List.mem_filterMap]
  constructor
  · rintro ⟨tok, htok, hw⟩
    cases tok with
    | sym c => cases hw
    | word w' =>
        cases hw
        exact htok
  · intro hw
    exact ⟨.word w, hw, rfl⟩

theorem words_redirNode {op : UInt8} (hop : op ∈ redirOps) (f : W) (cmd : Cmd W) :
    (redirNode op f cmd).words = cmd.words ++ [f] := by
  unfold redirNode
  split
  · rfl
  · next hless =>
      split
      · rfl
      · next hgreater =>
          rw [if_pos]
          · rfl
          · simpa [redirOps, hless, hgreater] using hop

theorem words_wrap (cmd : Cmd W) (rs : List (Redir W)) :
    (wrap cmd rs).words = cmd.words ++ rs.map Redir.file := by
  unfold wrap
  induction rs generalizing cmd with
  | nil => exact (List.append_nil _).symm
  | cons r rs ih =>
      rw [List.foldl_cons, ih, words_redirNode r.op_mem, List.append_assoc]
      rfl

theorem words_back (k : Nat) (t : Cmd W) : (Cmd.back^[k] t).words = t.words := by
  induction k generalizing t with
  | zero => rfl
  | succ k ih => exact ih (.back t)

theorem tokenWords_redirTokens (rs : List (Redir W)) :
    tokenWords (redirTokens rs) = rs.map Redir.file := by
  induction rs with
  | nil => rfl
  | cons r rs ih => exact congrArg (List.cons r.file) ih

theorem tokenWords_argTokens (gs : List (Arg W)) :
    (gs.map Arg.word ++ (gs.flatMap Arg.redirs).map Redir.file).Perm
      (tokenWords (argTokens gs)) := by
  induction gs with
  | nil => exact .nil
  | cons g gs ih =>
      show List.Perm (g.word :: (gs.map Arg.word ++ _))
        (g.word :: tokenWords (redirTokens g.redirs ++ argTokens gs))
      rw [tokenWords_append, tokenWords_redirTokens, List.flatMap_cons, List.map_append]
      apply List.Perm.cons
      exact (List.perm_append_comm_assoc _ _ _).trans (ih.append_left _)

/-- The words of a derived tree are those of the tokens, each once. -/
def WordsPerm (ts : List (Token W)) (t : Cmd W) : Prop := t.words.Perm (tokenWords ts)

theorem Line.words_perm {ts : List (Token W)} {t : Cmd W} (h : Line ts t) :
    t.words.Perm (tokenWords ts) := by
  refine @Line.rec W (fun ts t _ => WordsPerm ts t) (fun ts t _ => WordsPerm ts t)
    (fun ts t _ => WordsPerm ts t) ?last ?seq ?exec ?bar ?block ?words ts t h
  all_goals unfold WordsPerm
  case last =>
    intro ts t k _ hpipe
    rw [words_back, tokenWords_append, tokenWords_replicate, List.append_nil]
    exact hpipe
  case seq =>
    intro ts ts' t t' k _ _ hpipe hline
    rw [tokenWords_append, tokenWords_append, tokenWords_replicate]
    show List.Perm ((Cmd.back^[k] t).words ++ t'.words) (tokenWords ts ++ tokenWords ts')
    rw [words_back]
    exact hpipe.append hline
  case exec =>
    intro ts t _ hexec
    exact hexec
  case bar =>
    intro ts ts' t t' _ _ hexec hpipe
    rw [tokenWords_append]
    exact hexec.append hpipe
  case block =>
    intro ts t rs _ hline
    show List.Perm _ (tokenWords (ts ++ .sym rparen :: redirTokens rs))
    rw [words_wrap, tokenWords_append]
    show List.Perm _ (tokenWords ts ++ tokenWords (redirTokens rs))
    rw [tokenWords_redirTokens]
    exact hline.append_right _
  case words =>
    intro rs gs _
    rw [words_wrap, tokenWords_append, tokenWords_redirTokens, List.map_append]
    exact (List.perm_append_comm_assoc _ _ _).trans ((tokenWords_argTokens gs).append_left _)

end OsWork.Ports.Shell
