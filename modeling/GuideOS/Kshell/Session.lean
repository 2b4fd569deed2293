import GuideOS.Kshell.SplitLine
import GuideOS.Util.Kprintf.Call
import GuideOS.Util.Str.Compare

/-!
# A session with the shell

`kshell_main` of `kshell.c`, with `echo` and the table of built-in commands.  Between two
characters the shell waits in the `console_getc` of `ksh_read_line`; a character that ends
the line runs the rest of the loop up to the next wait.  The strings are in memory, and the
output is the calls of `putchar`.

A session refines `Visible`: the text that the user sees, in which each line is followed by
the answer to it.  Both stop where a store would leave `buffer` or `parts`.
-/

namespace GuideOS
namespace Kshell

open Lib

/-- Where the strings of `kshell.c` and the variables of `kshell_main` and `kprintf` lie. -/
structure Frame where
  /-- `"$> "` -/
  prompt : Nat
  /-- `"\n"` -/
  newline : Nat
  /-- `"%s "` -/
  argFormat : Nat
  /-- `"Command not found: %s\n"` -/
  notFound : Nat
  /-- `built_ins[0].cmd` -/
  echoCmd : Nat
  buffer : Nat
  parts : Nat
  /-- `buffer` of `kprintf` -/
  kprintfBuffer : Nat

/-- While the shell waits for a character. -/
structure Shell where
  mem : Bytes
  parts : Nat → Nat
  inputLen : Nat
  putchars : List Int

inductive Builtin
  | echo
deriving DecidableEq, Repr

variable (L : Frame)

/-- The cells of `buffer`. -/
def Frame.cells (m : Bytes) : Nat → BitVec 8 := fun i => m (L.buffer + i)

def Shell.setBuffer (s : Shell) (f : Nat → BitVec 8) : Shell :=
  { s with mem := fun a => if L.buffer ≤ a ∧ a < L.buffer + cmdMaxLen then f (a - L.buffer) else s.mem a }

/-- `kprintf` of a format with at most one argument, which is a pointer. -/
def Shell.print (s : Shell) (format arg : Nat) (fuel : Nat) : Option Shell :=
  (Kprintf.kprintf L.kprintfBuffer ⟨s.mem, []⟩ format (fun _ => BitVec.ofNat 64 arg) fuel).map fun r =>
    { s with mem := r.2.mem, putchars := s.putchars ++ r.2.sent.map BitVec.toInt }

/-- `for (size_t i = 1; i < argc; i++)`, from `i` on -/
def echoLoop (argc i : Nat) (s : Shell) : Nat → Option Shell
  | 0 => none
  | fuel + 1 =>
      if i < argc then do
        let s ← s.print L L.argFormat (s.parts i) fuel
        echoLoop argc (i + 1) s fuel
      else some s

def echo (argc : Nat) (s : Shell) (fuel : Nat) : Option Shell := do
  let s ← echoLoop L argc 1 s fuel
  s.print L L.newline 0 fuel

def builtIns : List (Nat × Builtin) := [(L.echoCmd, .echo)]

/-- The loop over `built_ins`. -/
def findBuiltin (m : Bytes) (cmd : Nat) : List (Nat × Builtin) → Option (Option Builtin)
  | [] => some none
  | (name, fn) :: rest => do
      let r ← Str.strcmp m name cmd
      if r = 0 then some (some fn) else findBuiltin m cmd rest

/-- The loop of `kshell_main` behind `ksh_split_line`. -/
def runCommand (argc : Nat) (s : Shell) (fuel : Nat) : Option Shell :=
  if argc = 0 then s.print L L.newline 0 fuel
  else do
    match ← findBuiltin s.mem (s.parts 0) (builtIns L) with
    | some .echo => echo L argc s fuel
    | none => s.print L L.notFound (s.parts 0) fuel

/-- The call of `ksh_split_line`, and the rest of the loop. -/
def runLine (s : Shell) (fuel : Nat) : Option Shell := do
  let (argc, r) ← kshSplitLine L.buffer L.parts ⟨L.cells s.mem, s.parts, [], []⟩ fuel
  if ∀ i ∈ r.tokensAt, i < cmdMaxParts then
    runCommand L argc { s.setBuffer L r.line with parts := r.tokens } fuel
  else none

/-- What `ksh_read_line` has done. -/
def Shell.read (s : Shell) (e : State) : Shell :=
  { s.setBuffer L e.buf with inputLen := e.inputLen, putchars := s.putchars ++ e.putchars }

/-- The loop of `kshell_main` behind `ksh_read_line`, up to the next wait. -/
def nextLine (s : Shell) (fuel : Nat) : Option Shell := do
  let s ← runLine L s fuel
  let s ← s.print L L.prompt 0 fuel
  return { s with inputLen := 0 }

/-- `console_getc` returns `c`. -/
def Shell.getc (s : Shell) (c : Int) (fuel : Nat) : Option Shell :=
  let (status, e) := kshReadLine ⟨s.inputLen, L.cells s.mem, [], []⟩ [c]
  if ∀ i ∈ e.stores, i < cmdMaxLen then
    match status with
    | .waiting => some (s.read L e)
    | .returned => nextLine L (s.read L e) fuel
    | .panicked => none
  else none

/-- `kshell_main` up to its first wait. -/
def kshellMain (m : Bytes) (parts : Nat → Nat) (fuel : Nat) : Option Shell :=
  Shell.print L ⟨m, parts, 0, []⟩ L.prompt 0 fuel

/-- The session after the characters `cs`. -/
def session (m : Bytes) (parts : Nat → Nat) (cs : List Int) (fuel : Nat) : Option Shell := do
  let s ← kshellMain L m parts fuel
  cs.foldlM (fun s c => s.getc L c fuel) s

/-! ## What is seen -/

def chars (cs : List Char) : List (BitVec 8) := cs.map fun c => BitVec.ofNat 8 c.toNat

def promptText : List (BitVec 8) := chars ['$', '>', ' ']

def echoText : List (BitVec 8) := chars ['e', 'c', 'h', 'o']

def notFoundText : List (BitVec 8) :=
  chars ['C', 'o', 'm', 'm', 'a', 'n', 'd', ' ', 'n', 'o', 't', ' ', 'f', 'o', 'u', 'n', 'd', ':', ' ']

/-- The answer to a line that is cut into these words. -/
def answer : List (List (BitVec 8)) → List (BitVec 8)
  | [] => [0x0A]
  | cmd :: args =>
      if cmd = echoText then args.flatMap (· ++ [space]) ++ [0x0A] else notFoundText ++ cmd ++ [0x0A]

/-- What is seen of a line that has been ended, up to the next one. -/
def exchange (line : List (BitVec 8)) : List (BitVec 8) := line ++ [0x0A] ++ answer (pieces line) ++ promptText

/-- The line and its terminator fit `buffer`, the tokens and the null pointer fit `parts`. -/
def Fits (line : List (BitVec 8)) : Prop := line.length < cmdMaxLen ∧ (pieces line).length < cmdMaxParts

instance (line : List (BitVec 8)) : Decidable (Fits line) := inferInstanceAs (Decidable (_ ∧ _))

/-- The text that is done with, and the line that is typed. -/
structure Visible where
  text : List (BitVec 8)
  line : List (BitVec 8)
deriving DecidableEq

def Visible.getc (v : Visible) (c : Int) : Option Visible :=
  if c < 0 then none
  else if LineEnd c then
    if Fits v.line then some ⟨v.text ++ exchange v.line, []⟩ else none
  else some { v with line := (toEdit c).apply cmdMaxLen v.line }

/-- What is seen after the characters `cs`. -/
def transcript (cs : List Int) : Option Visible := cs.foldlM Visible.getc ⟨promptText, []⟩

/-- The strings of `kshell.c`. -/
def Frame.strings : List (Nat × List (BitVec 8)) :=
  [(L.prompt, promptText), (L.newline, [0x0A]), (L.argFormat, chars ['%', 's', ' ']),
    (L.notFound, notFoundText ++ chars ['%', 's'] ++ [0x0A]), (L.echoCmd, echoText)]

def Frame.Image (m : Bytes) : Prop := ∀ r ∈ L.strings, CStr m r.1 r.2

/-- Nothing but `buffer` has changed. -/
def Frame.Kept (m m' : Bytes) : Prop := ∀ a, a < L.buffer ∨ L.buffer + cmdMaxLen ≤ a → m' a = m a

/-- The strings and the variables do not wrap, and `buffer` holds none of the strings. -/
structure Frame.Placed : Prop where
  buffer : L.buffer ≠ 0
  buffer_end : L.buffer + cmdMaxLen ≤ 2 ^ 64
  parts : L.parts ≠ 0
  kprintfBuffer : L.kprintfBuffer ≠ 0
  strings : ∀ r ∈ L.strings, r.1 + r.2.length < 2 ^ 64 ∧
    (r.1 + r.2.length < L.buffer ∨ L.buffer + cmdMaxLen ≤ r.1)

section

variable {L : Frame} {m : Bytes} {s : Shell} {a p : Nat} {cs w text : List (BitVec 8)} {ws : List (List (BitVec 8))}

/-! ## Output -/

theorem filter_ne_zero (h : ∀ c ∈ text, c ≠ 0) : text.filter (· ≠ 0) = text :=
  List.filter_eq_self.mpr fun c hc => by simpa using h c hc

/-- The text is sent to the console. -/
def Shell.say (s : Shell) (text : List (BitVec 8)) : Shell :=
  { s with putchars := s.putchars ++ text.map BitVec.toInt }

theorem Frame.Placed.string (hplaced : L.Placed) (himage : L.Image m) (h : (a, cs) ∈ L.strings) :
    a < 2 ^ 64 ∧ CStr m a cs :=
  ⟨Nat.lt_of_le_of_lt (Nat.le_add_right a _) (hplaced.strings _ h).1, himage _ h⟩

/-- A call of `kprintf` sends the text of its format. -/
theorem print_run (hplaced : L.Placed) (himage : L.Image s.mem) {format : Nat} (hformat : (format, cs) ∈ L.strings)
    (harg : Kprintf.Reads ⟨.outChar, L.kprintfBuffer, Kprintf.sizeMax⟩ text.length s.mem (fun _ => w)
      (Kprintf.parse cs) ⟨fun _ => BitVec.ofNat 64 a, 0⟩)
    (hcomplete : Kprintf.Complete (Kprintf.parse cs))
    (htext : Kprintf.formatText (fun _ => w) cs (fun _ => BitVec.ofNat 64 a) = text)
    (hchar : ∀ c ∈ text, c ≠ 0) (hshort : text.length < 2 ^ 64) :
    ∃ N, ∀ fuel ≥ N, s.print L format a fuel = some (s.say text) := by
  obtain ⟨hlt, hstring⟩ := hplaced.string himage hformat
  have hcall : Kprintf.Call ⟨.outChar, L.kprintfBuffer, Kprintf.sizeMax⟩ s.mem (fun _ => w) format cs
      (fun _ => BitVec.ofNat 64 a) :=
    ⟨hlt, hstring, fun _ _ h => Kprintf.OutFct.noConfusion h, by rw [htext]; exact harg, by rw [htext]; exact hshort⟩
  obtain ⟨N, hrun⟩ := Kprintf.kprintf_run (w := ⟨s.mem, []⟩) hplaced.kprintfBuffer hcall hcomplete
  refine ⟨N, fun fuel hfuel => ?_⟩
  rw [Shell.print, hrun fuel hfuel, htext, filter_ne_zero hchar]
  rfl

/-- `%s` -/
def stringSpec : Kprintf.Spec := ⟨[], .absent, none, [], 0x73⟩

theorem expand_stringSpec (w : List (BitVec 8)) (va : Kprintf.VaList) :
    (stringSpec.expand (fun _ => w) va).1 = w := by
  show List.replicate (0 - w.length % 2 ^ 32) (0x20 : BitVec 8) ++ w = w
  rw [Nat.zero_sub]
  rfl

theorem parse_argFormat : Kprintf.parse (chars ['%', 's', ' ']) = [.spec stringSpec, .lit 0x20] := by
  decide

theorem parse_notFound : Kprintf.parse (notFoundText ++ chars ['%', 's'] ++ [0x0A]) =
    notFoundText.map .lit ++ [.spec stringSpec, .lit 0x0A] := by
  decide +kernel

theorem formatText_argFormat (w : List (BitVec 8)) (arg : Nat → BitVec 64) :
    Kprintf.formatText (fun _ => w) (chars ['%', 's', ' ']) arg = w ++ [space] := by
  rw [Kprintf.formatText, parse_argFormat]
  show (stringSpec.expand (fun _ => w) _).1 ++ [space] = _
  rw [expand_stringSpec]

theorem expand_lits (str : BitVec 64 → List (BitVec 8)) (cs : List (BitVec 8)) (va : Kprintf.VaList) :
    Kprintf.expand str (cs.map .lit) va = (cs, va) := by
  induction cs with
  | nil => rfl
  | cons c cs ih => rw [List.map_cons, Kprintf.expand, ih]

theorem formatText_notFound (w : List (BitVec 8)) (arg : Nat → BitVec 64) :
    Kprintf.formatText (fun _ => w) (notFoundText ++ chars ['%', 's'] ++ [0x0A]) arg =
      notFoundText ++ w ++ [0x0A] := by
  rw [Kprintf.formatText, parse_notFound, Kprintf.expand_append, expand_lits, List.append_assoc]
  show notFoundText ++ ((stringSpec.expand (fun _ => w) _).1 ++ [0x0A]) = _
  rw [expand_stringSpec]

/-- A pointer to a string is read where `%s` stands. -/
theorem reads_string {n : Nat} (hp : p < 2 ^ 64) (hw : CStr m p w) :
    stringSpec.Reads ⟨.outChar, L.kprintfBuffer, Kprintf.sizeMax⟩ n m (fun _ => w)
      ⟨fun _ => BitVec.ofNat 64 p, 0⟩ := by
  intro _
  show Kprintf.Readable _ n m _ (BitVec.ofNat 64 p).toNat w
  rw [BitVec.toNat_ofNat, Nat.mod_eq_of_lt hp]
  have hspares : ∀ a, (⟨.outChar, L.kprintfBuffer, Kprintf.sizeMax⟩ : Kprintf.Sink).Spares n a :=
    fun _ hout => Kprintf.OutFct.noConfusion hout
  exact ⟨fun i hi => ⟨hw.char hp hi, hw.char_ne_zero _ (List.getElem_mem hi), hspares _⟩,
    Or.inl ⟨hw.nul hp, hspares _⟩⟩

theorem reads_lits (k : Kprintf.Sink) (n : Nat) (str : BitVec 64 → List (BitVec 8)) (items : List Kprintf.Item)
    (va : Kprintf.VaList) :
    Kprintf.Reads k n m str (cs.map .lit ++ items) va ↔ Kprintf.Reads k n m str items va := by
  induction cs with
  | nil => rfl
  | cons c cs ih => exact ih

theorem print_newline (hplaced : L.Placed) (himage : L.Image s.mem) :
    ∃ N, ∀ fuel ≥ N, s.print L L.newline 0 fuel = some (s.say [0x0A]) := by
  have hmem : (L.newline, [0x0A]) ∈ L.strings := by simp [Frame.strings]
  exact print_run (w := []) hplaced himage hmem trivial (by decide) rfl (by decide) (by decide)

theorem print_prompt (hplaced : L.Placed) (himage : L.Image s.mem) :
    ∃ N, ∀ fuel ≥ N, s.print L L.prompt 0 fuel = some (s.say promptText) := by
  have hmem : (L.prompt, promptText) ∈ L.strings := by simp [Frame.strings]
  exact print_run (w := []) hplaced himage hmem trivial (by decide) rfl (by decide) (by decide)

theorem print_arg (hplaced : L.Placed) (himage : L.Image s.mem) (hp : p < 2 ^ 64) (hw : CStr s.mem p w)
    (hshort : w.length < cmdMaxLen) :
    ∃ N, ∀ fuel ≥ N, s.print L L.argFormat p fuel = some (s.say (w ++ [space])) := by
  have hmem : (L.argFormat, chars ['%', 's', ' ']) ∈ L.strings := by simp [Frame.strings]
  refine print_run hplaced himage hmem ?_ (by decide) (formatText_argFormat w _) ?_ ?_
  · rw [parse_argFormat]
    exact ⟨reads_string hp hw, trivial⟩
  · rw [List.forall_mem_append]
    exact ⟨hw.char_ne_zero, by decide⟩
  · rw [List.length_append, List.length_singleton]
    rw [cmdMaxLen] at hshort
    omega

theorem print_notFound (hplaced : L.Placed) (himage : L.Image s.mem) (hp : p < 2 ^ 64) (hw : CStr s.mem p w)
    (hshort : w.length < cmdMaxLen) :
    ∃ N, ∀ fuel ≥ N, s.print L L.notFound p fuel = some (s.say (notFoundText ++ w ++ [0x0A])) := by
  have hmem : (L.notFound, notFoundText ++ chars ['%', 's'] ++ [0x0A]) ∈ L.strings := by simp [Frame.strings]
  refine print_run hplaced himage hmem ?_ (by decide +kernel) (formatText_notFound w _) ?_ ?_
  · rw [parse_notFound, reads_lits]
    exact ⟨reads_string hp hw, trivial⟩
  · rw [List.forall_mem_append, List.forall_mem_append]
    exact ⟨⟨by decide, hw.char_ne_zero⟩, by decide⟩
  · have htext : notFoundText.length = 19 := rfl
    rw [List.length_append, List.length_append, List.length_singleton, htext]
    rw [cmdMaxLen] at hshort
    omega

theorem say_say (s : Shell) (t u : List (BitVec 8)) : (s.say t).say u = s.say (t ++ u) := by
  rw [Shell.say, Shell.say, Shell.say, List.map_append, List.append_assoc]

/-! ## Commands -/

/-- The pointers of `parts` point to the words. -/
def Args (s : Shell) (ws : List (List (BitVec 8))) : Prop :=
  ∀ k (hk : k < ws.length), s.parts k < 2 ^ 64 ∧ CStr s.mem (s.parts k) ws[k] ∧ ws[k].length < cmdMaxLen

/-- The loop of `echo` from argument `i` on. -/
theorem echoLoop_run (hplaced : L.Placed) (himage : L.Image s.mem) (hargs : Args s ws) {i : Nat} (hi : i ≤ ws.length) :
    ∃ N, ∀ fuel ≥ N, echoLoop L ws.length i s fuel = some (s.say ((ws.drop i).flatMap (· ++ [space]))) := by
  induction hn : ws.length - i generalizing s i with
  | zero =>
      refine ⟨1, fun fuel hfuel => ?_⟩
      obtain ⟨fuel, rfl⟩ := Nat.exists_eq_succ_of_ne_zero (Nat.ne_of_gt hfuel)
      rw [echoLoop, if_neg (by omega), List.drop_eq_nil_of_le (by omega), Shell.say, List.flatMap_nil,
        List.map_nil, List.append_nil]
  | succ n ih =>
      have hlt : i < ws.length := by omega
      obtain ⟨hp, hw, hshort⟩ := hargs i hlt
      obtain ⟨N₁, hprint⟩ := print_arg hplaced himage hp hw hshort
      obtain ⟨N₂, hrest⟩ := ih (s := s.say (ws[i] ++ [space])) himage hargs hlt (by omega)
      refine ⟨max N₁ N₂ + 1, fun fuel hfuel => ?_⟩
      obtain ⟨fuel, rfl⟩ := Nat.exists_eq_succ_of_ne_zero (show fuel ≠ 0 by omega)
      rw [echoLoop, if_pos hlt, hprint fuel (by omega), Option.bind_eq_bind, Option.bind_some,
        hrest fuel (by omega), say_say, List.drop_eq_getElem_cons hlt, List.flatMap_cons]

theorem echo_run (hplaced : L.Placed) (himage : L.Image s.mem) (hargs : Args s ws) (hpos : 0 < ws.length) :
    ∃ N, ∀ fuel ≥ N, echo L ws.length s fuel = some (s.say (ws.tail.flatMap (· ++ [space]) ++ [0x0A])) := by
  obtain ⟨N₁, hloop⟩ := echoLoop_run hplaced himage hargs (i := 1) hpos
  obtain ⟨N₂, hnewline⟩ := print_newline (s := s.say ((ws.drop 1).flatMap (· ++ [space]))) hplaced himage
  refine ⟨max N₁ N₂, fun fuel hfuel => ?_⟩
  rw [echo, hloop fuel (by omega), Option.bind_eq_bind, Option.bind_some, hnewline fuel (by omega), say_say,
    List.drop_one]

/-- `strcmp` finds `echo` and nothing else. -/
theorem findBuiltin_run (hplaced : L.Placed) (himage : L.Image m) (hp : p < 2 ^ 64) (hw : CStr m p w) :
    findBuiltin m p (builtIns L) = some (if w = echoText then some .echo else none) := by
  have hmem : (L.echoCmd, echoText) ∈ L.strings := by simp [Frame.strings]
  obtain ⟨hlt, hecho⟩ := hplaced.string himage hmem
  have hzero := (Str.strcmpOrder m).zero_iff ⟨L.echoCmd, echoText, hlt, hecho⟩ ⟨p, w, hp, hw⟩
  obtain ⟨r, hr⟩ : ∃ r, Str.strcmp m L.echoCmd p = some r :=
    ⟨_, Str.strcmpLoop_eq hecho hw (show echoText.length < 2 ^ 64 by decide)⟩
  simp only [hr, Option.some.injEq] at hzero
  rw [builtIns, findBuiltin, hr, Option.bind_eq_bind, Option.bind_some]
  by_cases heq : w = echoText
  · rw [if_pos (hzero.mpr heq.symm), if_pos heq]
  · rw [if_neg fun h => heq (hzero.mp h).symm, if_neg heq]
    rfl

/-- A line that has been cut is answered. -/
theorem runCommand_run (hplaced : L.Placed) (himage : L.Image s.mem) (hargs : Args s ws) :
    ∃ N, ∀ fuel ≥ N, runCommand L ws.length s fuel = some (s.say (answer ws)) := by
  cases ws with
  | nil =>
      obtain ⟨N, hprint⟩ := print_newline (s := s) hplaced himage
      exact ⟨N, fun fuel hfuel => hprint fuel hfuel⟩
  | cons cmd args =>
      obtain ⟨hp, hw, hshort⟩ := hargs 0 (Nat.succ_pos _)
      rw [List.getElem_cons_zero] at hw hshort
      have hfind := findBuiltin_run hplaced himage hp hw
      have hne : (cmd :: args).length ≠ 0 := Nat.succ_ne_zero _
      by_cases hcmd : cmd = echoText
      · obtain ⟨N, hecho⟩ := echo_run hplaced himage hargs (Nat.succ_pos _)
        refine ⟨N, fun fuel hfuel => ?_⟩
        rw [runCommand, if_neg hne, hfind, if_pos hcmd, answer, if_pos hcmd]
        exact hecho fuel hfuel
      · obtain ⟨N, hprint⟩ := print_notFound hplaced himage hp hw hshort
        refine ⟨N, fun fuel hfuel => ?_⟩
        rw [runCommand, if_neg hne, hfind, if_neg hcmd, answer, if_neg hcmd]
        exact hprint fuel hfuel

/-! ## The line in memory -/

theorem cells_setBuffer (s : Shell) (f : Nat → BitVec 8) {i : Nat} (hi : i < cmdMaxLen) :
    L.cells (s.setBuffer L f).mem i = f i := by
  rw [Frame.cells, Shell.setBuffer]
  simp only
  rw [if_pos (by omega), Nat.add_sub_cancel_left]

theorem kept_setBuffer (s : Shell) (f : Nat → BitVec 8) : L.Kept s.mem (s.setBuffer L f).mem :=
  fun a ha => if_neg (show ¬(L.buffer ≤ a ∧ a < L.buffer + cmdMaxLen) by omega)

theorem Frame.Kept.trans {m' m'' : Bytes} (h : L.Kept m m') (h' : L.Kept m' m'') : L.Kept m m'' :=
  fun a ha => (h' a ha).trans (h a ha)

theorem Frame.Placed.image {m' : Bytes} (hplaced : L.Placed) (himage : L.Image m) (hkept : L.Kept m m') :
    L.Image m' := by
  intro r hr
  obtain ⟨hlt, hout⟩ := hplaced.strings r hr
  refine (himage r hr).congr (by omega) fun i hi => hkept _ ?_
  rw [Nat.mod_eq_of_lt (by omega)]
  omega

/-- A word of the line is a string in memory. -/
theorem cstr_setBuffer (hplaced : L.Placed) {f : Nat → BitVec 8} {q : Nat} (hat : At f q (w ++ [0]))
    (hchar : ∀ c ∈ w, c ≠ 0) (hq : q + w.length < cmdMaxLen) :
    CStr (s.setBuffer L f).mem (L.buffer + q) w := by
  have hend := hplaced.buffer_end
  induction w generalizing q with
  | nil => exact (cells_setBuffer s f hq).trans hat.1
  | cons c w ih =>
      rw [List.length_cons] at hq
      obtain ⟨hc, hw⟩ := List.forall_mem_cons.mp hchar
      refine ⟨(cells_setBuffer s f (by omega)).trans hat.1, hc, ?_⟩
      rw [Nat.mod_eq_of_lt (by omega), Nat.add_assoc]
      exact ih hat.2 hw (by omega)

/-- A word ends where the terminator of the line stands, or before it. -/
theorem At.end_le {f : Nat → BitVec 8} {q n : Nat} (hat : At f q w) (hchar : ∀ c ∈ w, c ≠ 0) (hq : q ≤ n)
    (hstop : f n = 0) : q + w.length ≤ n := by
  induction w generalizing q with
  | nil => exact hq
  | cons c w ih =>
      obtain ⟨hc, hw⟩ := List.forall_mem_cons.mp hchar
      have hne : q ≠ n := by
        rintro rfl
        exact hc (hat.1.symm.trans hstop)
      have hrest := ih hat.2 hw (by omega)
      rw [List.length_cons]
      omega

theorem words_char (cs : List (BitVec 8)) : ∀ w ∈ words cs, ∀ c ∈ w, c ∈ cs := by
  have hsplit : ∀ w ∈ cs.splitOn space, ∀ c ∈ w, c ∈ cs := by
    induction cs with
    | nil => simp
    | cons d cs ih =>
        rw [List.splitOn_cons_eq_if_modifyHead]
        intro w hw c hc
        split at hw
        · rcases List.mem_cons.mp hw with rfl | hw
          · exact absurd hc List.not_mem_nil
          · exact List.mem_cons_of_mem d (ih w hw c hc)
        · cases hpieces : cs.splitOn space with
          | nil => exact (List.splitOn_ne_nil _ _ hpieces).elim
          | cons first rest =>
              rw [hpieces, List.modifyHead_cons] at hw
              rw [hpieces] at ih
              rcases List.mem_cons.mp hw with rfl | hw
              · rcases List.mem_cons.mp hc with rfl | hc
                · exact List.mem_cons_self
                · exact List.mem_cons_of_mem d (ih first List.mem_cons_self c hc)
              · exact List.mem_cons_of_mem d (ih w (List.mem_cons_of_mem first hw) c hc)
  exact fun w hw => hsplit w (List.mem_of_mem_filter hw)

theorem pieces_char (cs : List (BitVec 8)) : ∀ w ∈ pieces cs, ∀ c ∈ w, c ∈ cs := by
  rw [pieces]
  split
  · exact List.forall_mem_cons.mpr ⟨fun c hc => absurd hc List.not_mem_nil, words_char cs⟩
  · exact words_char cs

/-! ## Where the tokens point -/

theorem skipWord_kept {s s' : Split} {fuel q : Nat} (h : skipWord s p fuel = some (s', q)) :
    s'.tokens = s.tokens ∧ s.lineAt ⊆ s'.lineAt := by
  induction fuel generalizing s p with
  | zero => cases h
  | succ fuel ih =>
      rw [skipWord] at h
      split at h
      · obtain ⟨htokens, hline⟩ := ih h
        exact ⟨htokens, fun i hi => hline (List.mem_append_left _ hi)⟩
      · cases h
        exact ⟨rfl, List.subset_append_left ..⟩

theorem clearSpaces_kept {s s' : Split} {fuel q : Nat} (h : clearSpaces s p fuel = some (s', q)) :
    s'.tokens = s.tokens ∧ s.lineAt ⊆ s'.lineAt := by
  induction fuel generalizing s p with
  | zero => cases h
  | succ fuel ih =>
      rw [clearSpaces] at h
      split at h
      · obtain ⟨htokens, hline⟩ := ih h
        exact ⟨htokens, fun i hi => hline (List.mem_append_left _ hi)⟩
      · cases h
        exact ⟨rfl, List.subset_append_left ..⟩

/-- A token points to a place at which the line was read. -/
theorem splitLoop_points {s s' : Split} {line t t' fuel : Nat} (h : splitLoop line s t p fuel = some (s', t'))
    (hs : ∀ k < t, ∃ q ∈ s.lineAt, s.tokens k = line + q) : ∀ k < t', ∃ q ∈ s'.lineAt, s'.tokens k = line + q := by
  induction fuel generalizing s t p with
  | zero => cases h
  | succ fuel ih =>
      rw [splitLoop] at h
      split at h
      · obtain ⟨⟨s₁, p₁⟩, hskip, h⟩ := Option.bind_eq_some_iff.mp h
        obtain ⟨⟨s₂, p₂⟩, hclear, h⟩ := Option.bind_eq_some_iff.mp h
        obtain ⟨htokens₁, hline₁⟩ := skipWord_kept hskip
        obtain ⟨htokens₂, hline₂⟩ := clearSpaces_kept hclear
        refine ih h fun k hk => ?_
        rw [htokens₂, htokens₁]
        show ∃ q ∈ s₂.lineAt, Function.update s.tokens t (line + p) k = line + q
        by_cases hkt : k = t
        · rw [hkt, Function.update_self]
          exact ⟨p, hline₂ (hline₁ (List.mem_append_right _ List.mem_cons_self)), rfl⟩
        · obtain ⟨q, hq, htoken⟩ := hs k (by omega)
          rw [Function.update_of_ne hkt]
          exact ⟨q, hline₂ (hline₁ (List.mem_append_left _ hq)), htoken⟩
      · cases h
        intro k hk
        obtain ⟨q, hq, htoken⟩ := hs k hk
        exact ⟨q, List.mem_append_left _ hq, htoken⟩

/-! ## More fuel -/

theorem skipWord_mono {s : Split} {fuel fuel' : Nat} {r : Split × Nat} (h : skipWord s p fuel = some r)
    (hle : fuel ≤ fuel') : skipWord s p fuel' = some r := by
  induction fuel generalizing s p fuel' with
  | zero => cases h
  | succ fuel ih =>
      obtain ⟨fuel', rfl⟩ := Nat.exists_eq_succ_of_ne_zero (show fuel' ≠ 0 by omega)
      rw [skipWord] at h ⊢
      split
      · rw [if_pos ‹_›] at h
        exact ih h (Nat.le_of_succ_le_succ hle)
      · rw [if_neg ‹_›] at h
        exact h

theorem clearSpaces_mono {s : Split} {fuel fuel' : Nat} {r : Split × Nat} (h : clearSpaces s p fuel = some r)
    (hle : fuel ≤ fuel') : clearSpaces s p fuel' = some r := by
  induction fuel generalizing s p fuel' with
  | zero => cases h
  | succ fuel ih =>
      obtain ⟨fuel', rfl⟩ := Nat.exists_eq_succ_of_ne_zero (show fuel' ≠ 0 by omega)
      rw [clearSpaces] at h ⊢
      split
      · rw [if_pos ‹_›] at h
        exact ih h (Nat.le_of_succ_le_succ hle)
      · rw [if_neg ‹_›] at h
        exact h

theorem splitLoop_mono {s : Split} {line t fuel fuel' : Nat} {r : Split × Nat} (h : splitLoop line s t p fuel = some r)
    (hle : fuel ≤ fuel') : splitLoop line s t p fuel' = some r := by
  induction fuel generalizing s t p fuel' with
  | zero => cases h
  | succ fuel ih =>
      obtain ⟨fuel', rfl⟩ := Nat.exists_eq_succ_of_ne_zero (show fuel' ≠ 0 by omega)
      have hle' := Nat.le_of_succ_le_succ hle
      rw [splitLoop] at h ⊢
      split
      · rw [if_pos ‹_›] at h
        obtain ⟨⟨s₁, p₁⟩, hskip, h⟩ := Option.bind_eq_some_iff.mp h
        obtain ⟨⟨s₂, p₂⟩, hclear, h⟩ := Option.bind_eq_some_iff.mp h
        rw [skipWord_mono hskip hle', Option.bind_eq_bind, Option.bind_some]
        simp only
        rw [clearSpaces_mono hclear hle', Option.bind_some]
        exact ih h hle'
      · rw [if_neg ‹_›] at h
        exact h

/-- The line is cut in place, and the tokens point to its words in memory. -/
theorem splitLine_run (hplaced : L.Placed) (hline : IsLine (L.cells s.mem) cs) :
    ∃ r : Split, (∀ fuel, cs.length + 2 ≤ fuel →
        kshSplitLine L.buffer L.parts ⟨L.cells s.mem, s.parts, [], []⟩ fuel = some ((pieces cs).length, r)) ∧
      (pieces cs).length ∈ r.tokensAt ∧ (∀ i ∈ r.tokensAt, i ≤ (pieces cs).length) ∧
      Args { s.setBuffer L r.line with parts := r.tokens } (pieces cs) := by
  obtain ⟨s', hloop, hdone⟩ := IsLine.splitLoop (s := ⟨L.cells s.mem, s.parts, [], []⟩) hline L.buffer
    (Nat.le_refl (cs.length + 2))
  have hpoints := splitLoop_points hloop fun k hk => absurd hk (Nat.not_lt_zero k)
  have hshort := hline.short
  have hend := hplaced.buffer_end
  refine ⟨s'.storeToken (pieces cs).length 0, fun fuel hfuel => ?_, ?_, fun i hi => ?_, fun k hk => ?_⟩
  · rw [kshSplitLine, if_neg (not_or.mpr ⟨hplaced.buffer, hplaced.parts⟩), splitLoop_mono hloop hfuel]
    rfl
  · exact List.mem_append_right _ List.mem_cons_self
  · rcases List.mem_append.mp hi with hi | hi
    · have hlt := (hdone.tokensAt i hi).resolve_left List.not_mem_nil
      omega
    · exact Nat.le_of_eq (List.mem_singleton.mp hi)
  · obtain ⟨q, htoken, hat⟩ := hdone.tokens k hk
    obtain ⟨q', hq', htoken'⟩ := hpoints k hk
    rw [Nat.zero_add] at htoken
    have hqq : q = q' := Nat.add_left_cancel (htoken.symm.trans htoken')
    have hq : q ≤ cs.length := hqq ▸ (hdone.lineAt q' hq').resolve_left List.not_mem_nil
    have hchar : ∀ c ∈ (pieces cs)[k], c ≠ 0 := fun c hc =>
      hline.char c (pieces_char cs _ (List.getElem_mem hk) c hc)
    have hle := At.end_le (at_append.mp hat).1 hchar hq hdone.stop
    show Function.update s'.tokens (pieces cs).length 0 k < 2 ^ 64 ∧
      CStr (s.setBuffer L s'.line).mem (Function.update s'.tokens (pieces cs).length 0 k) _ ∧ _
    rw [Function.update_of_ne (Nat.ne_of_lt hk), htoken]
    exact ⟨by omega, cstr_setBuffer hplaced hat hchar (by omega), by omega⟩

theorem runLine_run (hplaced : L.Placed) (himage : L.Image s.mem) (hline : IsLine (L.cells s.mem) cs)
    (hparts : (pieces cs).length < cmdMaxParts) :
    ∃ s' : Shell, L.Kept s.mem s'.mem ∧ s'.putchars = s.putchars ∧
      ∃ N, ∀ fuel ≥ N, runLine L s fuel = some (s'.say (answer (pieces cs))) := by
  obtain ⟨r, hsplit, _, htokens, hargs⟩ := splitLine_run hplaced hline
  have hkept := kept_setBuffer (L := L) s r.line
  have himage' := hplaced.image himage hkept
  obtain ⟨N, hcommand⟩ := runCommand_run (s := { s.setBuffer L r.line with parts := r.tokens }) hplaced himage' hargs
  refine ⟨{ s.setBuffer L r.line with parts := r.tokens }, hkept, rfl, max N (cs.length + 2), fun fuel hfuel => ?_⟩
  rw [runLine, hsplit fuel (by omega), Option.bind_eq_bind, Option.bind_some]
  simp only
  rw [if_pos fun i hi => Nat.lt_of_le_of_lt (htokens i hi) hparts]
  exact hcommand fuel (by omega)

/-- A token would be stored outside `parts`. -/
theorem runLine_none (hplaced : L.Placed) (hline : IsLine (L.cells s.mem) cs)
    (hparts : cmdMaxParts ≤ (pieces cs).length) : ∃ N, ∀ fuel ≥ N, runLine L s fuel = none := by
  obtain ⟨r, hsplit, hlast, _, _⟩ := splitLine_run hplaced hline
  refine ⟨cs.length + 2, fun fuel hfuel => ?_⟩
  rw [runLine, hsplit fuel hfuel, Option.bind_eq_bind, Option.bind_some]
  exact if_neg fun hall => Nat.not_lt.mpr hparts (hall _ hlast)

/-! ## One character -/

theorem echoed_map (out : List Int) (text : List (BitVec 8)) :
    echoed (out ++ text.map BitVec.toInt) = echoed out ++ text := by
  induction text generalizing out with
  | nil => rw [List.map_nil, List.append_nil, List.append_nil]
  | cons c text ih =>
      have hne : c.toInt ≠ backspace := by
        have hlt := c.toInt_lt
        rw [backspace]
        omega
      rw [List.map_cons, List.append_cons, ih, echoed_concat, if_neg hne, BitVec.ofInt_toInt, List.append_assoc,
        List.singleton_append]

/-- A character of the line changes the line and, behind whatever was shown before it, its echo. -/
theorem kshReadLine_typed {f : Nat → BitVec 8} {n : Nat} {c : Int} (hc : 0 ≤ c) (hend : ¬LineEnd c)
    (hn : n ≤ cmdMaxLen) :
    ∃ e : State, kshReadLine ⟨n, f, [], []⟩ [c] = (.waiting, e) ∧
      e.held = (toEdit c).apply cmdMaxLen ((List.range n).map f) ∧ e.inputLen ≤ cmdMaxLen ∧
      (∀ i ∈ e.stores, i < cmdMaxLen) ∧
      ∀ out text, echoed out = text ++ (List.range n).map f → echoed (out ++ e.putchars) = text ++ e.held := by
  have hend' : ¬(c = 0x0D ∨ c = 0x0A) := hend
  have hlen : ((List.range n).map f).length = n := by rw [List.length_map, List.length_range]
  have hnone : ∀ i ∈ ([] : List Nat), i < cmdMaxLen := fun i hi => absurd hi List.not_mem_nil
  have hkept : ∀ out text, echoed out = text ++ (List.range n).map f →
      echoed (out ++ []) = text ++ (⟨n, f, [], []⟩ : State).held := fun out text h => by
    rw [List.append_nil]
    exact h
  rw [kshReadLine, if_neg (by omega)]
  by_cases hback : c = backspace
  · rw [toEdit, if_pos hback, Edit.apply]
    by_cases hpos : n > 0
    · rw [if_pos ⟨hback, hpos⟩]
      have hheld := held_pred ⟨n, f, [], []⟩
      refine ⟨_, rfl, hheld, by simp only [State.putchar]; omega, hnone, fun out text h => ?_⟩
      have hne : (List.range n).map f ≠ [] := fun hnil => by rw [hnil, List.length_nil] at hlen; omega
      rw [State.putchar, List.nil_append, echoed_concat, if_pos rfl, h, List.dropLast_append_of_ne_nil hne]
      exact congrArg (text ++ ·) hheld.symm
    · have hchar : ¬(n < cmdMaxLen ∧ c > 0 ∧ c < 0xFF) := by
        rw [hback, backspace]
        omega
      have hzero : n = 0 := by omega
      subst hzero
      rw [if_neg (fun hboth => hpos hboth.2), if_neg hend', if_neg hchar]
      exact ⟨_, rfl, rfl, hn, hnone, hkept⟩
  · rw [if_neg (fun hboth => hback hboth.1), if_neg hend', toEdit, if_neg hback]
    by_cases hchar : 0 < c ∧ c < 0xFF
    · rw [if_pos hchar, Edit.apply, hlen]
      by_cases hroom : n < cmdMaxLen
      · rw [if_pos ⟨hroom, hchar⟩, if_pos hroom]
        have hheld := held_succ ⟨n, f, [], []⟩ (BitVec.ofInt 8 c)
        refine ⟨_, rfl, hheld, hroom, fun i hi => ?_, fun out text h => ?_⟩
        · rw [List.mem_singleton.mp hi]
          exact hroom
        · show echoed (out ++ [c]) = _
          rw [echoed_concat, if_neg hback, h, List.append_assoc]
          exact congrArg (text ++ ·) hheld.symm
      · rw [if_neg (fun hall => hroom hall.1), if_neg hroom]
        exact ⟨_, rfl, rfl, hn, hnone, hkept⟩
    · rw [if_neg (fun hall => hchar hall.2), if_neg hchar]
      exact ⟨_, rfl, rfl, hn, hnone, hkept⟩

theorem at_of_cells {f : Nat → BitVec 8} (h : ∀ i (hi : i < cs.length), f (p + i) = cs[i]) : At f p cs := by
  induction cs generalizing p with
  | nil => trivial
  | cons c cs ih =>
      refine ⟨h 0 (Nat.succ_pos _), ih fun i hi => ?_⟩
      rw [show p + 1 + i = p + (i + 1) by omega]
      exact h (i + 1) (Nat.succ_lt_succ hi)

theorem held_setBuffer (s : Shell) (f : Nat → BitVec 8) {n : Nat} (hn : n ≤ cmdMaxLen) :
    (List.range n).map (L.cells (s.setBuffer L f).mem) = (List.range n).map f :=
  List.map_congr_left fun _ hi => cells_setBuffer s f (Nat.lt_of_lt_of_le (List.mem_range.mp hi) hn)

/-- The line and the output agree with what is seen, and of the memory `m` nothing but `buffer` has
changed. -/
structure Shows (L : Frame) (m : Bytes) (s : Shell) (v : Visible) : Prop where
  kept : L.Kept m s.mem
  held : (List.range s.inputLen).map (L.cells s.mem) = v.line
  echoed : echoed s.putchars = v.text ++ v.line
  char : ∀ c ∈ v.line, c ≠ 0
  short : v.line.length ≤ cmdMaxLen

variable {v : Visible} {c : Int}

theorem Shows.inputLen (h : Shows L m s v) : s.inputLen = v.line.length := by
  rw [← h.held, List.length_map, List.length_range]

theorem toEdit_char (hchar : ∀ c ∈ w, c ≠ 0) (c : Int) : ∀ d ∈ (toEdit c).apply cmdMaxLen w, d ≠ 0 := by
  rw [toEdit]
  split
  · exact fun d hd => hchar d (List.mem_of_mem_dropLast hd)
  · split
    · rw [Edit.apply]
      split
      · rw [List.forall_mem_append]
        refine ⟨hchar, fun d hd => ?_⟩
        rw [List.mem_singleton.mp hd]
        intro hzero
        have hnat := congrArg BitVec.toNat hzero
        rw [BitVec.toNat_ofInt] at hnat
        change (c % 256).toNat = 0 at hnat
        omega
      · exact hchar
    · exact hchar

theorem Shows.typed (h : Shows L m s v) (hc : 0 ≤ c) (hend : ¬LineEnd c) :
    ∃ s', (∀ fuel, s.getc L c fuel = some s') ∧
      Shows L m s' { v with line := (toEdit c).apply cmdMaxLen v.line } := by
  have hlen := h.inputLen
  have hshort := h.short
  obtain ⟨e, hrun, hheld, hle, hstores, hecho⟩ :=
    kshReadLine_typed (f := L.cells s.mem) hc hend (show s.inputLen ≤ cmdMaxLen by omega)
  rw [h.held] at hheld hecho
  refine ⟨s.read L e, fun fuel => ?_, h.kept.trans (kept_setBuffer s e.buf), ?_, ?_, toEdit_char h.char c,
    length_apply_le h.short⟩
  · rw [Shell.getc, hrun]
    exact if_pos hstores
  · exact (held_setBuffer s e.buf hle).trans hheld
  · exact (hecho s.putchars v.text h.echoed).trans (congrArg (v.text ++ ·) hheld)

/-- What `ksh_read_line` leaves at the end of a line. -/
def Shell.entered (L : Frame) (s : Shell) : State := ((⟨s.inputLen, L.cells s.mem, [], []⟩ : State).putchar 0x0A).store s.inputLen 0

theorem getc_lineEnd (hc : LineEnd c) (hroom : s.inputLen < cmdMaxLen) (fuel : Nat) :
    s.getc L c fuel = nextLine L (s.read L (s.entered L)) fuel := by
  have hread : kshReadLine ⟨s.inputLen, L.cells s.mem, [], []⟩ [c] = (.returned, s.entered L) :=
    kshReadLine_lineEnd _ hc []
  have hstores : ∀ i ∈ (s.entered L).stores, i < cmdMaxLen := fun i hi => List.mem_singleton.mp hi ▸ hroom
  rw [Shell.getc, hread]
  exact if_pos hstores

/-- The line is ended: it is in memory with its terminator. -/
theorem Shows.ended (h : Shows L m s v) (hroom : v.line.length < cmdMaxLen) :
    IsLine (L.cells (s.read L (s.entered L)).mem) v.line := by
  have hlen := h.inputLen
  have hcell : ∀ i < cmdMaxLen, L.cells (s.read L (s.entered L)).mem i =
      Function.update (L.cells s.mem) s.inputLen 0 i := fun i hi => cells_setBuffer s (s.entered L).buf hi
  refine ⟨at_append.mpr ⟨at_of_cells fun i hi => ?_, ?_, trivial⟩, h.char, hroom⟩
  · rw [Nat.zero_add, hcell i (by omega), Function.update_of_ne (by omega)]
    simp only [← h.held, List.getElem_map, List.getElem_range]
  · rw [Nat.zero_add, hcell _ hroom, hlen, Function.update_self]

theorem Shows.lineEnd (h : Shows L m s v) (hplaced : L.Placed) (himage : L.Image m) (hc : LineEnd c) (hfits : Fits v.line) :
    ∃ s', (∃ N, ∀ fuel ≥ N, s.getc L c fuel = some s') ∧ Shows L m s' ⟨v.text ++ exchange v.line, []⟩ := by
  obtain ⟨hroom, hparts⟩ := hfits
  have hread : L.Kept m (s.read L (s.entered L)).mem := h.kept.trans (kept_setBuffer s (s.entered L).buf)
  obtain ⟨s₁, hkept, hout, N₁, hline⟩ := runLine_run hplaced (hplaced.image himage hread) (h.ended hroom) hparts
  have hkept₁ := hread.trans hkept
  obtain ⟨N₂, hprompt⟩ := print_prompt (s := s₁.say (answer (pieces v.line))) hplaced (hplaced.image himage hkept₁)
  refine ⟨{ s₁.say (answer (pieces v.line)) |>.say promptText with inputLen := 0 },
    ⟨max N₁ N₂, fun fuel hfuel => ?_⟩, hkept₁, rfl, ?_, fun d hd => absurd hd List.not_mem_nil, Nat.zero_le _⟩
  · rw [getc_lineEnd hc (h.inputLen ▸ hroom), nextLine, hline fuel (by omega), Option.bind_eq_bind,
      Option.bind_some, hprompt fuel (by omega)]
    rfl
  · show Kshell.echoed (s₁.putchars ++ _ ++ _) = _
    have hnewline : (s.read L (s.entered L)).putchars = s.putchars ++ ([0x0A] : List (BitVec 8)).map BitVec.toInt := rfl
    rw [echoed_map, echoed_map, hout, hnewline, echoed_map, h.echoed, List.append_nil, exchange]
    simp only [List.append_assoc]

/-- A line that does not fit is stored outside `buffer` or `parts`. -/
theorem Shows.overrun (h : Shows L m s v) (hplaced : L.Placed) (hc : LineEnd c)
    (hfits : ¬Fits v.line) :
    ∃ N, ∀ fuel ≥ N, s.getc L c fuel = none := by
  have hlen := h.inputLen
  by_cases hroom : v.line.length < cmdMaxLen
  · obtain ⟨N, hline⟩ := runLine_none hplaced (h.ended hroom) (Nat.not_lt.mp fun hparts => hfits ⟨hroom, hparts⟩)
    refine ⟨N, fun fuel hfuel => ?_⟩
    rw [getc_lineEnd hc (hlen ▸ hroom), nextLine, hline fuel hfuel]
    rfl
  · refine ⟨0, fun fuel _ => ?_⟩
    have hread : kshReadLine ⟨s.inputLen, L.cells s.mem, [], []⟩ [c] = (.returned, s.entered L) :=
      kshReadLine_lineEnd _ hc []
    rw [Shell.getc, hread]
    exact if_neg fun hall => hroom (hlen ▸ hall s.inputLen (List.mem_append_right _ List.mem_cons_self))

/-- One character of the session. -/
theorem Shows.getc (h : Shows L m s v) (hplaced : L.Placed) (himage : L.Image m) (c : Int) :
    (∀ v', v.getc c = some v' → ∃ s', (∃ N, ∀ fuel ≥ N, s.getc L c fuel = some s') ∧ Shows L m s' v') ∧
    (v.getc c = none → ∃ N, ∀ fuel ≥ N, s.getc L c fuel = none) := by
  rw [Visible.getc]
  by_cases hneg : c < 0
  · rw [if_pos hneg]
    refine ⟨fun _ hv => (by cases hv), fun _ => ⟨0, fun fuel _ => ?_⟩⟩
    rw [Shell.getc, kshReadLine, if_pos hneg]
    exact if_pos fun i hi => absurd hi List.not_mem_nil
  · rw [if_neg hneg]
    by_cases hc : LineEnd c
    · rw [if_pos hc]
      by_cases hfits : Fits v.line
      · rw [if_pos hfits]
        refine ⟨fun v' hv => ?_, fun hv => by cases hv⟩
        obtain rfl := Option.some.inj hv
        exact h.lineEnd hplaced himage hc hfits
      · rw [if_neg hfits]
        exact ⟨fun _ hv => (by cases hv), fun _ => h.overrun hplaced hc hfits⟩
    · rw [if_neg hc]
      refine ⟨fun v' hv => ?_, fun hv => by cases hv⟩
      obtain rfl := Option.some.inj hv
      obtain ⟨s', hstep, hshows⟩ := h.typed (by omega) hc
      exact ⟨s', ⟨0, fun fuel _ => hstep fuel⟩, hshows⟩

theorem Shows.run (h : Shows L m s v) (hplaced : L.Placed) (himage : L.Image m) (cs : List Int) :
    (∀ v', cs.foldlM Visible.getc v = some v' →
      ∃ s', (∃ N, ∀ fuel ≥ N, cs.foldlM (fun s c => s.getc L c fuel) s = some s') ∧ Shows L m s' v') ∧
    (cs.foldlM Visible.getc v = none → ∃ N, ∀ fuel ≥ N, cs.foldlM (fun s c => s.getc L c fuel) s = none) := by
  induction cs generalizing s v with
  | nil =>
      refine ⟨fun v' hv => ?_, fun hv => by cases hv⟩
      obtain rfl := Option.some.inj hv
      exact ⟨s, ⟨0, fun _ _ => rfl⟩, h⟩
  | cons c cs ih =>
      obtain ⟨hsome, hnone⟩ := h.getc hplaced himage c
      rw [List.foldlM_cons]
      cases hstep : v.getc c with
      | none =>
          obtain ⟨N, hrun⟩ := hnone hstep
          refine ⟨fun v' hv => (by cases hv), fun _ => ⟨N, fun fuel hfuel => ?_⟩⟩
          rw [List.foldlM_cons, hrun fuel hfuel]
          rfl
      | some v₁ =>
          obtain ⟨s₁, ⟨N₁, hrun⟩, hshows⟩ := hsome v₁ hstep
          obtain ⟨hrest, hstop⟩ := ih hshows
          refine ⟨fun v' hv => ?_, fun hv => ?_⟩
          · obtain ⟨s', ⟨N₂, hrun'⟩, hshows'⟩ := hrest v' hv
            refine ⟨s', ⟨max N₁ N₂, fun fuel hfuel => ?_⟩, hshows'⟩
            rw [List.foldlM_cons, hrun fuel (by omega)]
            exact hrun' fuel (by omega)
          · obtain ⟨N₂, hrun'⟩ := hstop hv
            refine ⟨max N₁ N₂, fun fuel hfuel => ?_⟩
            rw [List.foldlM_cons, hrun fuel (by omega)]
            exact hrun' fuel (by omega)

/-- The shell waits for its first character. -/
theorem kshellMain_shows (hplaced : L.Placed) (himage : L.Image m) (parts : Nat → Nat) :
    ∃ s, (∃ N, ∀ fuel ≥ N, kshellMain L m parts fuel = some s) ∧ Shows L m s ⟨promptText, []⟩ := by
  obtain ⟨N, hprompt⟩ := print_prompt (s := ⟨m, parts, 0, []⟩) hplaced himage
  refine ⟨_, ⟨N, hprompt⟩, fun _ _ => rfl, rfl, ?_, fun d hd => absurd hd List.not_mem_nil, Nat.zero_le _⟩
  exact (echoed_map [] promptText).trans (by rw [List.append_nil]; rfl)

theorem session_shows (hplaced : L.Placed) (himage : L.Image m) (parts : Nat → Nat) (cs : List Int) :
    (∀ v, transcript cs = some v → ∃ s, (∃ N, ∀ fuel ≥ N, session L m parts cs fuel = some s) ∧ Shows L m s v) ∧
    (transcript cs = none → ∃ N, ∀ fuel ≥ N, session L m parts cs fuel = none) := by
  obtain ⟨s, ⟨N₁, hmain⟩, hshows⟩ := kshellMain_shows hplaced himage parts
  obtain ⟨hsome, hnone⟩ := hshows.run hplaced himage cs
  constructor
  · intro v hv
    obtain ⟨s', ⟨N₂, hrun⟩, hshows'⟩ := hsome v hv
    refine ⟨s', ⟨max N₁ N₂, fun fuel hfuel => ?_⟩, hshows'⟩
    rw [session, hmain fuel (by omega)]
    exact hrun fuel (by omega)
  · intro hv
    obtain ⟨N₂, hrun⟩ := hnone hv
    refine ⟨max N₁ N₂, fun fuel hfuel => ?_⟩
    rw [session, hmain fuel (by omega)]
    exact hrun fuel (by omega)

/-! ## Lines -/

/-- A line that is typed, and the character that ends it. -/
abbrev Line := List Int × Int

def Line.Typed (l : Line) : Prop := Kshell.Typed l.1 ∧ LineEnd l.2

instance (l : Line) : Decidable l.Typed := inferInstanceAs (Decidable (_ ∧ _))

/-- All that is typed: whole lines, and the beginning of another. -/
def keys (ls : List Line) (cs : List Int) : List Int := ls.flatMap (fun l => l.1 ++ [l.2]) ++ cs

/-- What is seen after these lines. -/
def exchanges (ls : List Line) : List (BitVec 8) := promptText ++ ls.flatMap fun l => exchange (typedLine l.1)

theorem getc_edited (text line : List (BitVec 8)) {cs : List Int} (hcs : Typed cs) :
    cs.foldlM Visible.getc ⟨text, line⟩ = some ⟨text, edited cmdMaxLen line (cs.map toEdit)⟩ := by
  induction cs generalizing line with
  | nil => rfl
  | cons c cs ih =>
      obtain ⟨⟨hc, hend⟩, hcs⟩ := List.forall_mem_cons.mp hcs
      rw [List.foldlM_cons, Visible.getc, if_neg (by omega), if_neg hend]
      exact ih _ hcs

theorem getc_line (text : List (BitVec 8)) {l : Line} (hl : l.Typed) :
    (l.1 ++ [l.2]).foldlM Visible.getc ⟨text, []⟩ =
      if Fits (typedLine l.1) then some ⟨text ++ exchange (typedLine l.1), []⟩ else none := by
  have hpos : ¬l.2 < 0 := by
    rcases hl.2 with h | h <;> omega
  have hend : Visible.getc ⟨text, typedLine l.1⟩ l.2 =
      if Fits (typedLine l.1) then some ⟨text ++ exchange (typedLine l.1), []⟩ else none := by
    rw [Visible.getc, if_neg hpos, if_pos hl.2]
  rw [List.foldlM_append, getc_edited text [] hl.1, Option.bind_eq_bind, Option.bind_some, List.foldlM_cons]
  show (Visible.getc ⟨text, typedLine l.1⟩ l.2).bind _ = _
  rw [hend]
  split
  · rfl
  · rfl

/-- Each line is answered by itself. -/
theorem transcript_keys {ls : List Line} (hls : ∀ l ∈ ls, l.Typed) {cs : List Int} (hcs : Typed cs) :
    transcript (keys ls cs) =
      if ∀ l ∈ ls, Fits (typedLine l.1) then some ⟨exchanges ls, typedLine cs⟩ else none := by
  have hall : ∀ text, (keys ls cs).foldlM Visible.getc ⟨text, []⟩ =
      if ∀ l ∈ ls, Fits (typedLine l.1) then
        some ⟨text ++ ls.flatMap fun l => exchange (typedLine l.1), typedLine cs⟩ else none := by
    induction ls with
    | nil =>
        intro text
        rw [if_pos fun l hl => absurd hl List.not_mem_nil, List.flatMap_nil, List.append_nil]
        exact getc_edited text [] hcs
    | cons l ls ih =>
        obtain ⟨hl, hls⟩ := List.forall_mem_cons.mp hls
        intro text
        rw [keys, List.flatMap_cons, List.append_assoc, List.foldlM_append, getc_line text hl]
        by_cases hfits : Fits (typedLine l.1)
        · rw [if_pos hfits, Option.bind_eq_bind, Option.bind_some]
          refine (ih hls _).trans ?_
          rw [List.flatMap_cons, List.append_assoc]
          exact if_congr (by rw [List.forall_mem_cons, and_iff_right hfits]) rfl rfl
        · rw [if_neg hfits, if_neg fun h => hfits (h l List.mem_cons_self)]
          rfl
  exact hall promptText

end

/-- The strings one behind the other. -/
def smallFrame : Frame := ⟨100, 104, 106, 110, 133, 200, 2000, 3000⟩

def smallImage : Bytes := fun a => if a < 100 then 0 else (smallFrame.strings.flatMap (·.2 ++ [0])).getD (a - 100) 0

theorem smallFrame_placed : smallFrame.Placed :=
  ⟨by decide, by decide, by decide, by decide, by decide⟩

theorem smallImage_image : smallFrame.Image smallImage := by
  have hall : ∀ r ∈ smallFrame.strings, CStr smallImage r.1 r.2 := by decide +kernel
  exact hall

/-- `echo hu`, corrected to `echo hi` -/
def echoLine : Line := ([0x65, 0x63, 0x68, 0x6F, 0x20, 0x68, 0x75, 0x100, 0x69], 0x0D)

end Kshell
end GuideOS
