import GuideOS.Util.Kprintf.Run

/-!
# The calls of the formatter

`snprintf` writes as much of the text as its buffer holds, `kprintf` sends all of it.
-/

namespace GuideOS
namespace Kprintf

open Lib

/-- The list `cs` lies at `a`. -/
def Holds (m : Bytes) (a : Nat) (cs : List (BitVec 8)) : Prop :=
  ∀ i (hi : i < cs.length), m ((a + i) % 2 ^ 64) = cs[i]

/-- The text of a format with these arguments -/
def formatText (str : BitVec 64 → List (BitVec 8)) (cs : List (BitVec 8)) (arg : Nat → BitVec 64) :
    List (BitVec 8) := (expand str (parse cs) ⟨arg, 0⟩).1

/-- The format `cs` lies at `format`.  It and the strings of the arguments stay as they are while
the text is written, which has fewer than 2^64 characters. -/
structure Call (k : Sink) (m : Bytes) (str : BitVec 64 → List (BitVec 8)) (format : Nat) (cs : List (BitVec 8))
    (arg : Nat → BitVec 64) : Prop where
  lt : format < 2 ^ 64
  string : CStr m format cs
  spares : ∀ i ≤ cs.length, k.Spares (formatText str cs arg).length ((format + i) % 2 ^ 64)
  reads : Reads k (formatText str cs arg).length m str (parse cs) ⟨arg, 0⟩
  total : (formatText str cs arg).length < 2 ^ 64

section

variable {k : Sink} {m : Bytes} {str : BitVec 64 → List (BitVec 8)} {w : World} {format : Nat}
  {cs ds : List (BitVec 8)} {arg : Nat → BitVec 64}

theorem Call.formatLoop (h : Call k w.mem str format cs arg) (hcomplete : Complete (parse cs)) :
    ∃ N, ∀ fuel ≥ N, Kprintf.formatLoop k fuel ⟨⟨w, 0⟩, format, ⟨arg, 0⟩⟩ =
      some ((⟨w, 0⟩ : Output).puts k (formatText str cs arg)) :=
  formatLoop_complete h.total (fun _ _ => rfl) ⟨h.string, h.lt, rfl, h.spares⟩ h.reads
    (by rw [Nat.zero_add]; exact Nat.le_refl _) hcomplete

theorem idx_text {text : List (BitVec 8)} (h : text.length < 2 ^ 64) :
    ((⟨w, 0⟩ : Output).puts k text).idx = text.length := by
  rw [idx_puts (Nat.two_pow_pos 64)]
  show (0 + _) % 2 ^ 64 = _
  rw [Nat.zero_add, Nat.mod_eq_of_lt h]

/-! ## The buffer -/

theorem puts_unchanged (h : ∀ c idx w', k.put c idx w' = w') (s : Output) (cs : List (BitVec 8)) :
    (s.puts k cs).world = s.world := by
  induction cs generalizing s with
  | nil => rfl
  | cons c cs ih => exact (ih (s.put k c)).trans (h c s.idx s.world)

theorem puts_sent (hout : k.out = .outBuffer) (s : Output) (cs : List (BitVec 8)) :
    (s.puts k cs).world.sent = s.world.sent := by
  induction cs generalizing s with
  | nil => rfl
  | cons c cs ih =>
      rw [Output.puts, ih, Output.put, Sink.put, hout]
      simp only
      split
      · rfl
      · rfl

theorem puts_outside {s : Output} {a : Nat} (hlen : s.idx + cs.length < 2 ^ 64)
    (h : k.out = .outBuffer → ∀ i < cs.length, s.idx + i < k.maxlen → (k.buffer + (s.idx + i)) % 2 ^ 64 ≠ a) :
    (s.puts k cs).world.mem a = s.world.mem a := by
  induction cs generalizing s with
  | nil => rfl
  | cons c cs ih =>
      rw [List.length_cons] at hlen h
      have hidx : (s.put k c).idx = s.idx + 1 := Nat.mod_eq_of_lt (by omega)
      rw [Output.puts, ih (by rw [hidx]; omega) fun hout i hi hroom => ?_]
      · rw [Output.put, Sink.put]
        cases hout : k.out with
        | outBuffer =>
            simp only
            split
            · rename_i hroom
              exact Function.update_of_ne (Ne.symm (h hout 0 (Nat.succ_pos _) hroom)) _ _
            · rfl
        | outNull => rfl
        | outChar => simp only; split <;> rfl
        | outFct => simp only; split <;> rfl
      · rw [hidx] at hroom ⊢
        rw [show s.idx + 1 + i = s.idx + (i + 1) by omega] at hroom ⊢
        exact h hout (i + 1) (Nat.succ_lt_succ hi) hroom

/-- The characters that the buffer has room for are written to their places. -/
theorem puts_holds (hout : k.out = .outBuffer) {s : Output} (hlen : s.idx + cs.length < 2 ^ 64) :
    ∀ i (hi : i < cs.length), s.idx + i < k.maxlen →
      (s.puts k cs).world.mem ((k.buffer + (s.idx + i)) % 2 ^ 64) = cs[i] := by
  induction cs generalizing s with
  | nil => exact fun i hi => absurd hi (Nat.not_lt_zero i)
  | cons c cs ih =>
      rw [List.length_cons] at hlen
      have hidx : (s.put k c).idx = s.idx + 1 := Nat.mod_eq_of_lt (by omega)
      intro i hi hroom
      cases i with
      | zero =>
          rw [Output.puts, puts_outside (by rw [hidx]; omega) fun _ i hi _ => by rw [hidx]; omega, Output.put,
            Sink.put, hout]
          rw [Nat.add_zero] at hroom ⊢
          simp only
          rw [if_pos hroom]
          exact Function.update_self ..
      | succ i =>
          have hnext := ih (s := s.put k c) (by rw [hidx]; omega) i (Nat.lt_of_succ_lt_succ hi) (by rw [hidx]; omega)
          rw [hidx] at hnext
          rw [show s.idx + (i + 1) = s.idx + 1 + i by omega]
          exact hnext

theorem puts_sentChars (hout : k.out = .outChar ∨ k.out = .outFct) (s : Output) (cs : List (BitVec 8)) :
    (s.puts k cs).world = ⟨s.world.mem, s.world.sent ++ cs.filter (· ≠ 0)⟩ := by
  induction cs generalizing s with
  | nil => rw [List.filter_nil, List.append_nil]; rfl
  | cons c cs ih =>
      have hput : (s.put k c).world = ⟨s.world.mem, s.world.sent ++ [c].filter (· ≠ 0)⟩ := by
        have hsink : k.put c s.idx s.world =
            if c ≠ 0 then { s.world with sent := s.world.sent ++ [c] } else s.world := by
          rw [Sink.put]
          rcases hout with hout | hout
          · rw [hout]
          · rw [hout]
        rw [Output.put, hsink]
        by_cases hc : c = 0
        · rw [if_neg (fun h => h hc), List.filter_cons_of_neg (by simpa using hc), List.filter_nil, List.append_nil]
        · rw [if_pos hc, List.filter_cons_of_pos (by simpa using hc), List.filter_nil]
      rw [Output.puts, ih, hput, List.append_assoc, ← List.filter_append, List.singleton_append]

/-! ## `snprintf` -/

/-- The value that is returned for a text -/
def returned (text : List (BitVec 8)) : Int := (BitVec.ofNat 32 text.length).toInt

/-- `"%x"` at 100 -/
def hexFormat : Bytes := fun a => if a = 100 then 0x25 else if a = 101 then 0x78 else 0

theorem hexCall (k : Sink) (hbuffer : k.buffer = 200) :
    Call k hexFormat (fun _ => []) 100 [0x25, 0x78] fun _ => 255 where
  lt := by decide
  string := by decide
  spares := by
    intro i hi _ j hj
    have htotal : (formatText (fun _ => []) [0x25, 0x78] fun _ => 255).length = 2 := by decide
    rw [htotal] at hj
    rw [hbuffer]
    rw [List.length_cons, List.length_singleton] at hi
    omega
  reads := ⟨fun h => absurd h (by decide), trivial⟩
  total := by decide

/-- Without a buffer, or without room in it, nothing is written; the length is returned. -/
theorem snprintf_nothing {buffer count : Nat} (hnothing : buffer = 0 ∨ count = 0)
    (h : Call ⟨if buffer = 0 then .outNull else .outBuffer, buffer, count⟩ w.mem str format cs arg)
    (hcomplete : Complete (parse cs)) :
    ∃ N, ∀ fuel ≥ N, snprintf buffer count w format arg fuel = some (returned (formatText str cs arg), w) := by
  obtain ⟨N, hrun⟩ := h.formatLoop hcomplete
  refine ⟨N, fun fuel hfuel => ?_⟩
  have hput : ∀ c idx w', (⟨if buffer = 0 then .outNull else .outBuffer, buffer, count⟩ : Sink).put c idx w' = w' := by
    intro c idx w'
    rw [Sink.put]
    rcases hnothing with hnull | hcount
    · simp only [if_pos hnull]
    · by_cases hnull : buffer = 0
      · simp only [if_pos hnull]
      · simp only [if_neg hnull, hcount, Nat.not_lt_zero, if_false]
  have hworld := puts_unchanged hput ⟨w, 0⟩ (formatText str cs arg)
  have hsink : (if buffer = 0 then { (⟨.outBuffer, buffer, count⟩ : Sink) with out := .outNull }
      else ⟨.outBuffer, buffer, count⟩) = ⟨if buffer = 0 then .outNull else .outBuffer, buffer, count⟩ := by
    split <;> rfl
  rw [snprintf, vsnprintf]
  simp only [hsink]
  rw [hrun fuel hfuel, Option.map_some, hput, hworld, idx_text h.total, returned]

/-- All characters of the text but NUL are sent. -/
theorem kprintf_run {buffer : Nat} (hbuffer : buffer ≠ 0)
    (h : Call ⟨.outChar, buffer, sizeMax⟩ w.mem str format cs arg) (hcomplete : Complete (parse cs)) :
    ∃ N, ∀ fuel ≥ N, kprintf buffer w format arg fuel = some (returned (formatText str cs arg),
      ⟨w.mem, w.sent ++ (formatText str cs arg).filter (· ≠ 0)⟩) := by
  obtain ⟨N, hrun⟩ := h.formatLoop hcomplete
  refine ⟨N, fun fuel hfuel => ?_⟩
  rw [kprintf, vsnprintf]
  simp only
  rw [if_neg hbuffer, hrun fuel hfuel, Option.map_some, idx_text h.total, puts_sentChars (Or.inl rfl), Sink.put]
  rfl

/-! ## Two formats -/

/-- The arguments that a format leaves -/
def argsBehind (str : BitVec 64 → List (BitVec 8)) (cs : List (BitVec 8)) (arg : Nat → BitVec 64) :
    Nat → BitVec 64 := fun i => arg ((expand str (parse cs) ⟨arg, 0⟩).2.taken + i)

theorem same_argsBehind (str : BitVec 64 → List (BitVec 8)) (cs : List (BitVec 8)) (arg : Nat → BitVec 64) :
    (expand str (parse cs) ⟨arg, 0⟩).2.Same ⟨argsBehind str cs arg, 0⟩ := fun i => by
  show _ = arg (_ + (0 + i))
  rw [expand_arg, Nat.zero_add]

theorem formatText_append (hcs : ∀ c ∈ cs, c ≠ 0) (hds : ∀ c ∈ ds, c ≠ 0) (hcomplete : Complete (parse cs)) :
    formatText str (cs ++ ds) arg = formatText str cs arg ++ formatText str ds (argsBehind str cs arg) := by
  rw [formatText, parse_append hcs hds hcomplete, expand_append, (same_argsBehind str cs arg).expand]
  rfl

/-- **One call with two formats in a row sends what two calls send**, the second of which gets the
arguments that the first one left: the texts of the two formats. -/
theorem kprintf_append {buffer f f₁ f₂ : Nat} (w : World) (cs ds : List (BitVec 8)) (hbuffer : buffer ≠ 0)
    (h : Call ⟨.outChar, buffer, sizeMax⟩ w.mem str f (cs ++ ds) arg)
    (h₁ : Call ⟨.outChar, buffer, sizeMax⟩ w.mem str f₁ cs arg)
    (h₂ : Call ⟨.outChar, buffer, sizeMax⟩ w.mem str f₂ ds (argsBehind str cs arg))
    (hcs : Complete (parse cs)) (hds : Complete (parse ds)) :
    ∃ w₁ w₂ N, w₂ = ⟨w.mem, w.sent ++ (formatText str cs arg ++
        formatText str ds (argsBehind str cs arg)).filter (· ≠ 0)⟩ ∧
      ∀ fuel ≥ N, kprintf buffer w f arg fuel =
          some (returned (formatText str cs arg ++ formatText str ds (argsBehind str cs arg)), w₂) ∧
        kprintf buffer w f₁ arg fuel = some (returned (formatText str cs arg), w₁) ∧
        kprintf buffer w₁ f₂ (argsBehind str cs arg) fuel =
          some (returned (formatText str ds (argsBehind str cs arg)), w₂) := by
  have hcomplete : Complete (parse (cs ++ ds)) := by
    rw [parse_append h₁.string.char_ne_zero h₂.string.char_ne_zero hcs]
    exact fun sp hsp => (List.mem_append.mp hsp).elim (hcs sp) (hds sp)
  obtain ⟨N, hrun⟩ := kprintf_run hbuffer h hcomplete
  obtain ⟨N₁, hrun₁⟩ := kprintf_run hbuffer h₁ hcs
  obtain ⟨N₂, hrun₂⟩ := kprintf_run
    (w := ⟨w.mem, w.sent ++ (formatText str cs arg).filter (· ≠ 0)⟩) hbuffer h₂ hds
  rw [formatText_append h₁.string.char_ne_zero h₂.string.char_ne_zero hcs] at hrun
  refine ⟨_, _, max N (max N₁ N₂), rfl, fun fuel hfuel => ⟨hrun fuel (by omega), hrun₁ fuel (by omega), ?_⟩⟩
  rw [hrun₂ fuel (by omega), List.filter_append, List.append_assoc]

/-- `"%x%d"` at 100, `"%x"` at 110 and `"%d"` at 120 -/
def hexIntFormats : Bytes := fun a =>
  if a = 100 ∨ a = 102 ∨ a = 110 ∨ a = 120 then 0x25
  else if a = 101 ∨ a = 111 then 0x78
  else if a = 103 ∨ a = 121 then 0x64
  else 0

/-- 9, 10, 11 and so on -/
def fromNine (i : Nat) : BitVec 64 := BitVec.ofNat 64 (i + 9)

theorem kprintf_append_hexInt : ∃ w₁ N, ∀ fuel ≥ N,
    kprintf 200 ⟨hexIntFormats, []⟩ 100 fromNine fuel = some (3, ⟨hexIntFormats, [0x39, 0x31, 0x30]⟩) ∧
      kprintf 200 ⟨hexIntFormats, []⟩ 110 fromNine fuel = some (1, w₁) ∧
      kprintf 200 w₁ 120 (argsBehind (fun _ => []) [0x25, 0x78] fromNine) fuel =
        some (2, ⟨hexIntFormats, [0x39, 0x31, 0x30]⟩) := by
  have hboth : Call ⟨.outChar, 200, sizeMax⟩ hexIntFormats (fun _ => []) 100 ([0x25, 0x78] ++ [0x25, 0x64]) fromNine :=
    ⟨by decide, by decide, fun _ _ h => OutFct.noConfusion h,
      ⟨fun h => absurd h (by decide), fun h => absurd h (by decide), trivial⟩, by decide⟩
  have hfirst : Call ⟨.outChar, 200, sizeMax⟩ hexIntFormats (fun _ => []) 110 [0x25, 0x78] fromNine :=
    ⟨by decide, by decide, fun _ _ h => OutFct.noConfusion h, ⟨fun h => absurd h (by decide), trivial⟩, by decide⟩
  have hsecond : Call ⟨.outChar, 200, sizeMax⟩ hexIntFormats (fun _ => []) 120 [0x25, 0x64]
      (argsBehind (fun _ => []) [0x25, 0x78] fromNine) :=
    ⟨by decide, by decide, fun _ _ h => OutFct.noConfusion h, ⟨fun h => absurd h (by decide), trivial⟩, by decide⟩
  obtain ⟨w₁, w₂, N, hw₂, hrun⟩ := kprintf_append ⟨hexIntFormats, []⟩ [0x25, 0x78] [0x25, 0x64] (by decide) hboth
    hfirst hsecond (by decide) (by decide)
  have htext : formatText (fun _ => []) [0x25, 0x78] fromNine = [0x39] := by decide
  have htext' : formatText (fun _ => []) [0x25, 0x64] (argsBehind (fun _ => []) [0x25, 0x78] fromNine) =
      [0x31, 0x30] := by decide
  rw [htext, htext'] at hw₂ hrun
  rw [hw₂] at hrun
  exact ⟨w₁, N, hrun⟩

/-- **A directive that is broken off takes the terminator with it**: the string behind the format
is formatted as well, with the arguments that are left. -/
theorem kprintf_broken {buffer : Nat} (w : World) (str : BitVec 64 → List (BitVec 8))
    (cs ds : List (BitVec 8)) (hbuffer : buffer ≠ 0)
    (h : Call ⟨.outChar, buffer, sizeMax⟩ w.mem str format cs arg) (hbroken : ¬Complete (parse cs))
    (h' : Call ⟨.outChar, buffer, sizeMax⟩ w.mem str ((format + cs.length + 1) % 2 ^ 64) ds (argsBehind str cs arg))
    (hds : Complete (parse ds))
    (htotal : (formatText str cs arg ++ formatText str ds (argsBehind str cs arg)).length < 2 ^ 64) :
    ∃ N, ∀ fuel ≥ N, kprintf buffer w format arg fuel = some
      (returned (formatText str cs arg ++ formatText str ds (argsBehind str cs arg)),
        ⟨w.mem, w.sent ++ (formatText str cs arg ++ formatText str ds (argsBehind str cs arg)).filter (· ≠ 0)⟩) := by
  have hspares : ∀ n a, (⟨.outChar, buffer, sizeMax⟩ : Sink).Spares n a := fun _ _ hout => OutFct.noConfusion hout
  have hsame := same_argsBehind str cs arg
  have hworld := puts_sentChars (k := ⟨.outChar, buffer, sizeMax⟩) (Or.inl rfl) ⟨w, 0⟩ (formatText str cs arg)
  have htext : (expand str (parse ds) (expand str (parse cs) ⟨arg, 0⟩).2).1 =
      formatText str ds (argsBehind str cs arg) := hsame.expand str _
  obtain ⟨N₁, j, hrun₁⟩ := formatLoop_run h.total cs h.string.char_ne_zero ⟨w, 0⟩ format ⟨arg, 0⟩ (fun _ _ => rfl)
    ⟨h.string, h.lt, rfl, h.spares⟩ h.reads (by rw [Nat.zero_add]; exact Nat.le_refl _)
  obtain ⟨N₂, hrun₂⟩ := formatLoop_complete (m := w.mem) (e := ((format + cs.length + 1) % 2 ^ 64 + ds.length) % 2 ^ 64)
    (s := (⟨w, 0⟩ : Output).puts ⟨.outChar, buffer, sizeMax⟩ (formatText str cs arg)) htotal
    (fun b _ => by rw [hworld]) ⟨h'.string, h'.lt, rfl, fun i _ => hspares _ _⟩
    (h'.reads.congr (hspares _) fun i => (hsame i).symm)
    (by rw [idx_text h.total, htext, List.length_append]) hds
  refine ⟨max N₁ N₂ + j, fun fuel hfuel => ?_⟩
  obtain ⟨fuel, rfl⟩ : ∃ fuel', fuel = fuel' + j := ⟨fuel - j, by omega⟩
  have hbehind : behind (parse cs) ((format + cs.length) % 2 ^ 64) = (format + cs.length + 1) % 2 ^ 64 := by
    rw [behind, if_neg hbroken, Nat.mod_add_mod]
  rw [kprintf, vsnprintf]
  simp only
  rw [if_neg hbuffer, hrun₁ fuel (by omega), hbehind]
  have hrest := hrun₂ fuel (by omega)
  rw [htext] at hrest
  rw [formatText] at hrest htotal ⊢
  rw [hrest, ← puts_append, Option.map_some, idx_text htotal, puts_sentChars (Or.inl rfl), Sink.put]
  rfl

/-- `"%"` at 100 and `"%x"` behind it -/
def brokenFormat : Bytes := fun a => if a = 100 ∨ a = 102 then 0x25 else if a = 103 then 0x78 else 0

/-- The terminator of the first string is not among the characters that are sent. -/
theorem kprintf_broken_percent : ∃ N, ∀ fuel ≥ N,
    kprintf 200 ⟨brokenFormat, []⟩ 100 (fun _ => 255) fuel = some (3, ⟨brokenFormat, [0x66, 0x66]⟩) :=
  kprintf_broken ⟨brokenFormat, []⟩ (fun _ => []) [0x25] [0x25, 0x78] (by decide)
    ⟨by decide, by decide, fun _ _ h => OutFct.noConfusion h, ⟨fun h => absurd h (by decide), trivial⟩, by decide⟩
    (by decide)
    ⟨by decide, by decide, fun _ _ h => OutFct.noConfusion h, ⟨fun h => absurd h (by decide), trivial⟩, by decide⟩
    (by decide) (by decide)

end

end Kprintf
end GuideOS
