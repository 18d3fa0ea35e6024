import OsWork.Ports.ShellParser
import OsWork.Verified.CStrings

/-!
# The words of a command in `sh.c`

All words of a tree are in one buffer, and `nulterminate` writes a 0 behind each of them.  A
word stops at a blank, at a symbol or at the end of the string, and there is none of these
inside a word.

## Main results

* `zero_outside` — no zero is written inside a word.
* `words_survive` — each word of the tree is the text of its token.
-/

namespace OsWork.Ports.Shell

open Verified.ByteWords Verified.CStrings

variable {V W : Type}

/-- The tree with other words. -/
def Cmd.map (f : W → V) : Cmd W → Cmd V
  | .exec argv => .exec (argv.map f)
  | .redir cmd file mode fd => .redir (cmd.map f) (f file) mode fd
  | .pipe left right => .pipe (left.map f) (right.map f)
  | .list left right => .list (left.map f) (right.map f)
  | .back cmd => .back (cmd.map f)

/-- The text of a word token. -/
def Word.text (text : List UInt8) (w : Word) : List UInt8 := slice (bytesOf text) w.q w.eq

/-- The string that starts where the word does. -/
def Word.string (buf : List UInt8) (w : Word) : List UInt8 :=
  cstr (bytesOf buf) buf.length w.q

variable {text buf : List UInt8} {w w' : Word} {n : Nat}

theorem Cmd.map_congr {f g : W → V} {t : Cmd W} (h : ∀ w ∈ t.words, f w = g w) :
    t.map f = t.map g := by
  induction t with
  | exec argv => exact congrArg Cmd.exec (List.map_congr_left h)
  | redir cmd file mode fd ih =>
      have hcmd := ih fun w hw => h w (List.mem_append_left _ hw)
      have hfile := h file (List.mem_append_right _ List.mem_cons_self)
      rw [Cmd.map, Cmd.map, hcmd, hfile]
  | pipe left right ihleft ihright | list left right ihleft ihright =>
      have hleft := ihleft fun w hw => h w (List.mem_append_left _ hw)
      have hright := ihright fun w hw => h w (List.mem_append_right _ hw)
      rw [Cmd.map, Cmd.map, hleft, hright]
  | back cmd ih => exact congrArg Cmd.back (ih h)

theorem getD_buffer (text : List UInt8) (j : Nat) : (buffer text).getD j 0 = text.getD j 0 := by
  unfold buffer
  rw [List.getD_eq_getElem?_getD, List.getD_eq_getElem?_getD]
  rcases Nat.lt_or_ge j text.length with hlt | hge
  · rw [List.getElem?_append_left hlt]
  · rw [List.getElem?_append_right hge, List.getElem?_eq_none hge]
    cases j - text.length with
    | zero => rfl
    | succ k => rfl

/-- The byte behind a word is not one of a word, also at the end of the string. -/
theorem WordAt.not_inWord (hw : WordAt text w) (hzero : 0 ∉ text) :
    text.getD w.eq 0 = 0 ∨ inWord (text.getD w.eq 0) = false := by
  rcases Nat.lt_or_eq_of_le hw.scanned.le_length with hlt | heq
  · exact .inr (hw.scanned.stopped hlt)
  · exact .inl ((getD_eq_zero hzero).2 (Nat.le_of_eq heq.symm))

/-- The byte 0 is in no word. -/
theorem WordAt.ne_zero (hw : WordAt text w) (hzero : 0 ∉ text) {j : Nat} (hlt : j < w.eq) :
    text.getD j 0 ≠ 0 := fun h =>
  Nat.not_le.2 (Nat.lt_of_lt_of_le hlt hw.scanned.le_length) ((getD_eq_zero hzero).1 h)

/-- The end of a word is not inside a word. -/
theorem zero_outside (hzero : 0 ∉ text) (hw : WordAt text w) (hw' : WordAt text w') :
    ¬ (w'.q ≤ w.eq ∧ w.eq < w'.eq) := by
  rintro ⟨hle, hlt⟩
  rcases hw.not_inWord hzero with hend | hend
  · exact hw'.ne_zero hzero hlt hend
  · exact ne_true_of_eq_false hend (hw'.scanned.passed w.eq hle hlt)

/-- A terminated word, read as a string. -/
theorem string_eq_text {ws : List Word} (hzero : 0 ∉ text) (hall : ∀ w ∈ ws, WordAt text w)
    (hcut : Cut ws (buffer text) buf) (hw : w ∈ ws) : w.string buf = w.text text := by
  have hat := hall w hw
  have hle := hat.scanned.le_length
  have hlt := hat.lt
  have hlength : (w.text text).length = w.eq - w.q := slice_length _ _ _
  have hbytes : ∀ j, w.q ≤ j → j < w.eq → bytesOf buf j = bytesOf text j := by
    intro j hj hj'
    show buf.getD j 0 = text.getD j 0
    rw [hcut.byte, if_neg, getD_buffer]
    intro hmem
    obtain ⟨w', hw', rfl⟩ := List.mem_map.1 hmem
    exact zero_outside hzero (hall w' hw') hat ⟨hj, hj'⟩
  have hholds : Holds (bytesOf buf) w.q (w.text text) := by
    apply (holds_slice _ _ _).congr
    intro j hj hj'
    rw [slice_length] at hj'
    exact hbytes j hj (by omega)
  unfold Word.string
  apply cstr_of_holds hholds
  · show buf.getD _ 0 = 0
    rw [hlength, show w.q + (w.eq - w.q) = w.eq by omega, hcut.byte,
      if_pos (List.mem_map_of_mem hw)]
  · intro hmem
    obtain ⟨i, hi, hbyte⟩ := List.mem_map.1 hmem
    rw [List.mem_range] at hi
    exact hat.ne_zero hzero (by omega) hbyte
  · rw [hlength, hcut.length, buffer_length]
    omega

/-- Words survive: the tree is that of the tokens, its words are those of the tokens, each
read from the buffer is the text of its token, and no zero is written inside a word. -/
theorem words_survive (text : List UInt8) (hzero : 0 ∉ text) (n : Nat)
    (hn : 4 * text.length + 4 ≤ n) (t : Cmd Word) (buf : List UInt8)
    (h : parsecmd n (buffer text) = .ok (t, buf)) :
    Line (tokens text) t ∧ t.words.Perm (tokenWords (tokens text)) ∧
      t.map (Word.string buf) = t.map (Word.text text) ∧
      ∀ w ∈ t.words, ∀ w' ∈ t.words, ¬ (w'.q ≤ w.eq ∧ w.eq < w'.eq) := by
  obtain ⟨hline, hnul⟩ := (parsecmd_eq_ok hzero hn t buf).1 h
  have hall : ∀ w ∈ t.words, WordAt text w := fun w hw => hline.wordAt hzero hw
  obtain ⟨buf', hnul', hcut⟩ := nulterminate_cut t (buffer text) fun w hw => by
    rw [buffer_length]
    exact Nat.lt_succ_of_le (hall w hw).scanned.le_length
  cases hnul.symm.trans hnul'
  refine ⟨hline, hline.words_perm, ?_, fun w hw w' hw' => ?_⟩
  · exact Cmd.map_congr fun w hw => string_eq_text hzero hall hcut hw
  · exact zero_outside hzero (hall w hw) (hall w' hw')

/-- The command `a<b`: its words are `a` and `b`. -/
theorem words_survive_redirection :
    (Cmd.redir (.exec [⟨0, 1⟩]) ⟨2, 3⟩ O_RDONLY 0).map (Word.string [97, 0, 98, 0]) =
      .redir (.exec [[97]]) [98] O_RDONLY 0 :=
  (words_survive [97, 60, 98] (by decide) 16 (by decide) _ [97, 0, 98, 0] rfl).2.2.1

end OsWork.Ports.Shell
