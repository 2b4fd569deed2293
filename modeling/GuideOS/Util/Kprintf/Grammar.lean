import GuideOS.Util.Kprintf.Ntoa

/-!
# What a format says

A format is read as literal characters and directives.  A directive that the format breaks off
takes the terminator for its specifier, and its text then ends with it.  `expand` is the text
that the arguments give.
-/

namespace GuideOS
namespace Kprintf

/-- The width or the precision of a directive -/
inductive Field
  | absent
  | digits (ds : List (BitVec 8))
  | star
deriving DecidableEq, Repr

structure Spec where
  flags : List (BitVec 8)
  width : Field
  precision : Option Field
  length : List (BitVec 8)
  specifier : BitVec 8
deriving DecidableEq, Repr

inductive Item
  | lit (c : BitVec 8)
  | spec (sp : Spec)
deriving DecidableEq, Repr

def Field.text : Field → List (BitVec 8)
  | .absent => []
  | .digits ds => ds
  | .star => [0x2A]

/-- The characters behind the `%`. -/
def Spec.text (sp : Spec) : List (BitVec 8) :=
  sp.flags ++ sp.width.text ++ (sp.precision.elim [] fun f => 0x2E :: f.text) ++ sp.length ++ [sp.specifier]

def Item.text : Item → List (BitVec 8)
  | .lit c => [c]
  | .spec sp => 0x25 :: sp.text

/-! ## Reading -/

/-- `0`, `-`, `+`, a space or `#` -/
def isFlag (c : BitVec 8) : Bool := c = 0x30 || c = 0x2D || c = 0x2B || c = 0x20 || c = 0x23

def takeField : List (BitVec 8) → Field × List (BitVec 8)
  | [] => (.absent, [])
  | c :: cs =>
      if isDigit c then (.digits ((c :: cs).takeWhile isDigit), (c :: cs).dropWhile isDigit)
      else if c = 0x2A then (.star, cs)
      else (.absent, c :: cs)

def takePrecision : List (BitVec 8) → Option Field × List (BitVec 8)
  | [] => (none, [])
  | c :: cs => if c = 0x2E then (some (takeField cs).1, (takeField cs).2) else (none, c :: cs)

/-- `l` and `h` may be doubled. -/
def takeLength : List (BitVec 8) → List (BitVec 8) × List (BitVec 8)
  | [] => ([], [])
  | c :: cs =>
      if c = 0x6C ∨ c = 0x68 then if cs.head? = some c then ([c, c], cs.tail) else ([c], cs)
      else if c = 0x74 ∨ c = 0x6A ∨ c = 0x7A then ([c], cs)
      else ([], c :: cs)

/-- A directive and the rest of the format -/
def takeSpec (cs : List (BitVec 8)) : Spec × List (BitVec 8) :=
  let width := takeField (cs.dropWhile isFlag)
  let precision := takePrecision width.2
  let length := takeLength precision.2
  (⟨cs.takeWhile isFlag, width.1, precision.1, length.1, length.2.headD 0⟩, length.2.tail)

/-- The first `n` items of a format -/
def parseItems : Nat → List (BitVec 8) → List Item
  | 0, _ => []
  | _ + 1, [] => []
  | n + 1, c :: cs =>
      if c = 0x25 then .spec (takeSpec cs).1 :: parseItems n (takeSpec cs).2
      else .lit c :: parseItems n cs

def parse (cs : List (BitVec 8)) : List Item := parseItems cs.length cs

/-- No directive is broken off. -/
def Complete (items : List Item) : Prop := ∀ sp, .spec sp ∈ items → sp.specifier ≠ 0

section

variable {cs rest : List (BitVec 8)} {c : BitVec 8} {n : Nat}

theorem takeField_text (cs : List (BitVec 8)) : (takeField cs).1.text ++ (takeField cs).2 = cs := by
  cases cs with
  | nil => rfl
  | cons c cs =>
      rw [takeField]
      split_ifs with hdigit hstar
      · exact List.takeWhile_append_dropWhile
      · rw [hstar]
        rfl
      · rfl

theorem takePrecision_text (cs : List (BitVec 8)) :
    ((takePrecision cs).1.elim [] fun f => 0x2E :: f.text) ++ (takePrecision cs).2 = cs := by
  cases cs with
  | nil => rfl
  | cons c cs =>
      rw [takePrecision]
      split
      · rename_i hdot
        rw [hdot]
        exact congrArg _ (takeField_text cs)
      · rfl

theorem takeLength_text (cs : List (BitVec 8)) : (takeLength cs).1 ++ (takeLength cs).2 = cs := by
  cases cs with
  | nil => rfl
  | cons c cs =>
      rw [takeLength]
      split_ifs with htwice hhead
      · obtain ⟨cs', rfl⟩ := List.head?_eq_some_iff.mp hhead
        rfl
      · rfl
      · rfl
      · rfl

/-- What is read of a directive is its text; a specifier is missing at the end only. -/
theorem takeSpec_text (cs : List (BitVec 8)) (hcs : ∀ c ∈ cs, c ≠ 0) :
    ((takeSpec cs).1.specifier ≠ 0 ∧ (takeSpec cs).1.text ++ (takeSpec cs).2 = cs) ∨
      ((takeSpec cs).1.specifier = 0 ∧ (takeSpec cs).1.text = cs ++ [0] ∧ (takeSpec cs).2 = []) := by
  have hfield := takeField_text (cs.dropWhile isFlag)
  have hprecision := takePrecision_text (takeField (cs.dropWhile isFlag)).2
  have hlength := takeLength_text (takePrecision (takeField (cs.dropWhile isFlag)).2).2
  have hflags : cs.takeWhile isFlag ++ cs.dropWhile isFlag = cs := List.takeWhile_append_dropWhile
  rw [← hfield, ← hprecision, ← hlength] at hflags
  cases hrest : (takeLength (takePrecision (takeField (cs.dropWhile isFlag)).2).2).2 with
  | nil =>
      right
      rw [hrest, List.append_nil] at hflags
      simp only [takeSpec, Spec.text, hrest, List.append_assoc, List.headD_nil, List.tail_nil, true_and, and_true]
      simp only [← List.append_assoc] at hflags ⊢
      rw [hflags]
  | cons c rest =>
      left
      rw [hrest] at hflags
      have hc : c ≠ 0 := hcs c (by rw [← hflags]; simp)
      simp only [takeSpec, Spec.text, hrest, List.append_assoc, List.headD_cons, List.tail_cons,
        List.singleton_append]
      exact ⟨hc, hflags⟩

theorem length_takeSpec (cs : List (BitVec 8)) (hcs : ∀ c ∈ cs, c ≠ 0) : (takeSpec cs).2.length ≤ cs.length := by
  rcases takeSpec_text cs hcs with ⟨_, htext⟩ | ⟨_, _, hnil⟩
  · have hlen := congrArg List.length htext
    rw [List.length_append] at hlen
    omega
  · rw [hnil]
    exact Nat.zero_le _

theorem forall_takeSpec (cs : List (BitVec 8)) (hcs : ∀ c ∈ cs, c ≠ 0) : ∀ c ∈ (takeSpec cs).2, c ≠ 0 := by
  rcases takeSpec_text cs hcs with ⟨_, htext⟩ | ⟨_, _, hnil⟩
  · exact fun c hc => hcs c (by rw [← htext]; exact List.mem_append_right _ hc)
  · rw [hnil]
    exact fun c hc => absurd hc List.not_mem_nil

theorem parseItems_eq (n : Nat) (hcs : ∀ c ∈ cs, c ≠ 0) (hn : cs.length ≤ n) : parseItems n cs = parse cs := by
  have hstep : ∀ m n (ds : List (BitVec 8)), (∀ c ∈ ds, c ≠ 0) → ds.length ≤ m → ds.length ≤ n →
      parseItems m ds = parseItems n ds := by
    intro m
    induction m with
    | zero =>
        intro n ds _ hm _
        rw [List.eq_nil_of_length_eq_zero (Nat.le_zero.mp hm)]
        cases n <;> rfl
    | succ m ih =>
        intro n ds hds hm hn
        cases ds with
        | nil => cases n <;> rfl
        | cons d ds =>
            obtain ⟨n, rfl⟩ : ∃ n', n = n' + 1 := ⟨n - 1, by rw [List.length_cons] at hn; omega⟩
            obtain ⟨_, hds⟩ := List.forall_mem_cons.mp hds
            rw [List.length_cons] at hm hn
            have hlen := length_takeSpec ds hds
            rw [parseItems, parseItems, ih n ds hds (by omega) (by omega),
              ih n (takeSpec ds).2 (forall_takeSpec ds hds) (by omega) (by omega)]
  exact hstep n cs.length cs hcs hn (Nat.le_refl _)

theorem parse_lit (hc : c ≠ 0x25) : parse (c :: cs) = .lit c :: parse cs := by
  rw [parse, List.length_cons, parseItems, if_neg hc, parse]

theorem parse_spec (hcs : ∀ c ∈ cs, c ≠ 0) :
    parse (0x25 :: cs) = .spec (takeSpec cs).1 :: parse (takeSpec cs).2 := by
  rw [parse, List.length_cons, parseItems, if_pos rfl,
    parseItems_eq _ (forall_takeSpec cs hcs) (length_takeSpec cs hcs)]

/-- Induction over a format, item by item. -/
@[elab_as_elim]
theorem format_induction {motive : List (BitVec 8) → Prop} (nil : motive [])
    (lit : ∀ c cs, c ≠ 0x25 → motive cs → motive (c :: cs))
    (spec : ∀ cs, (∀ c ∈ cs, c ≠ 0) → motive (takeSpec cs).2 → motive (0x25 :: cs))
    (cs : List (BitVec 8)) (hcs : ∀ c ∈ cs, c ≠ 0) : motive cs := by
  obtain ⟨n, hn⟩ : ∃ n, cs.length ≤ n := ⟨_, Nat.le_refl _⟩
  induction n generalizing cs with
  | zero =>
      rw [List.eq_nil_of_length_eq_zero (Nat.le_zero.mp hn)]
      exact nil
  | succ n ih =>
      cases cs with
      | nil => exact nil
      | cons c cs =>
          obtain ⟨_, hcs⟩ := List.forall_mem_cons.mp hcs
          rw [List.length_cons] at hn
          by_cases hc : c = 0x25
          · have hlen := length_takeSpec cs hcs
            rw [hc]
            exact spec cs hcs (ih _ (forall_takeSpec cs hcs) (by omega))
          · exact lit c cs hc (ih cs hcs (by omega))

theorem complete_lit {items : List Item} : Complete (.lit c :: items) ↔ Complete items := by
  simp only [Complete, List.mem_cons, reduceCtorEq, false_or]

theorem complete_spec {sp : Spec} {items : List Item} :
    Complete (.spec sp :: items) ↔ sp.specifier ≠ 0 ∧ Complete items := by
  simp only [Complete, List.mem_cons, Item.spec.injEq, forall_eq_or_imp]

instance decidableComplete : (items : List Item) → Decidable (Complete items)
  | [] => isTrue fun _ h => absurd h List.not_mem_nil
  | .lit _ :: items => let _ := decidableComplete items; decidable_of_iff' _ complete_lit
  | .spec _ :: items => let _ := decidableComplete items; decidable_of_iff' _ complete_spec

/-- The items are the format, with its terminator if a directive is broken off. -/
theorem parse_text (cs : List (BitVec 8)) (hcs : ∀ c ∈ cs, c ≠ 0) :
    (parse cs).flatMap Item.text = if Complete (parse cs) then cs else cs ++ [0] := by
  refine format_induction rfl (fun c cs hc ih => ?_) (fun cs hcs ih => ?_) cs hcs
  · simp only [parse_lit hc, complete_lit]
    rw [List.flatMap_cons, ih]
    split
    · rfl
    · rfl
  · simp only [parse_spec hcs, complete_spec]
    rcases takeSpec_text cs hcs with ⟨hspec, htext⟩ | ⟨hspec, htext, hnil⟩
    · simp only [hspec, ne_eq, not_false_eq_true, true_and]
      rw [List.flatMap_cons, ih, Item.text]
      split
      · exact congrArg _ htext
      · rw [List.cons_append, ← List.append_assoc, htext]
        rfl
    · have hbroken : ¬((takeSpec cs).1.specifier ≠ 0 ∧ Complete (parse (takeSpec cs).2)) := fun h => h.1 hspec
      rw [if_neg hbroken, hnil, List.flatMap_cons, Item.text, htext]
      exact List.append_nil _

end

/-! ## Formats one behind the other -/

section

variable {cs ds : List (BitVec 8)}

theorem while_append {p : BitVec 8 → Bool} (h : cs.dropWhile p ≠ []) (ds : List (BitVec 8)) :
    (cs ++ ds).takeWhile p = cs.takeWhile p ∧ (cs ++ ds).dropWhile p = cs.dropWhile p ++ ds := by
  have hempty : ¬(cs.dropWhile p).isEmpty := fun h0 => h (List.isEmpty_iff.mp h0)
  refine ⟨?_, by rw [List.dropWhile_append, if_neg hempty]⟩
  rw [List.takeWhile_append, if_neg]
  intro hlen
  have hsum := congrArg List.length (List.takeWhile_append_dropWhile (p := p) (l := cs))
  rw [List.length_append] at hsum
  exact h (List.eq_nil_of_length_eq_zero (by omega))

theorem takeField_append (h : (takeField cs).2 ≠ []) :
    takeField (cs ++ ds) = ((takeField cs).1, (takeField cs).2 ++ ds) := by
  cases cs with
  | nil => exact absurd rfl h
  | cons c cs =>
      rw [takeField] at h ⊢
      rw [List.cons_append, takeField]
      split_ifs at h ⊢ with hdigit hstar
      · obtain ⟨htake, hdrop⟩ := while_append h ds
        rw [← List.cons_append, htake, hdrop]
      · rfl
      · rfl

theorem takePrecision_append (h : (takePrecision cs).2 ≠ []) :
    takePrecision (cs ++ ds) = ((takePrecision cs).1, (takePrecision cs).2 ++ ds) := by
  cases cs with
  | nil => exact absurd rfl h
  | cons c cs =>
      rw [takePrecision] at h ⊢
      rw [List.cons_append, takePrecision]
      split_ifs at h ⊢ with hdot
      · rw [takeField_append h]
      · rfl

theorem takeLength_append (h : (takeLength cs).2 ≠ []) :
    takeLength (cs ++ ds) = ((takeLength cs).1, (takeLength cs).2 ++ ds) := by
  cases cs with
  | nil => exact absurd rfl h
  | cons c cs =>
      have hhead : cs ≠ [] → (cs ++ ds).head? = cs.head? ∧ (cs ++ ds).tail = cs.tail ++ ds := fun hne =>
        ⟨List.head?_append_of_ne_nil cs hne, List.tail_append_of_ne_nil hne⟩
      rw [List.cons_append]
      simp only [takeLength] at h ⊢
      by_cases htwice : c = 0x6C ∨ c = 0x68
      · have hne : cs ≠ [] := by
          rintro rfl
          rw [if_pos htwice] at h
          exact h rfl
        rw [(hhead hne).1, (hhead hne).2]
        split_ifs <;> rfl
      · split_ifs <;> rfl

theorem takeSpec_append (h : (takeSpec cs).1.specifier ≠ 0) :
    takeSpec (cs ++ ds) = ((takeSpec cs).1, (takeSpec cs).2 ++ ds) := by
  have hlength : (takeLength (takePrecision (takeField (cs.dropWhile isFlag)).2).2).2 ≠ [] := fun h0 => by
    simp only [takeSpec, h0] at h
    exact h rfl
  have hprecision : (takePrecision (takeField (cs.dropWhile isFlag)).2).2 ≠ [] := fun h0 => by
    rw [h0] at hlength
    exact hlength rfl
  have hfield : (takeField (cs.dropWhile isFlag)).2 ≠ [] := fun h0 => by
    rw [h0] at hprecision
    exact hprecision rfl
  have hflags : cs.dropWhile isFlag ≠ [] := fun h0 => by
    rw [h0] at hfield
    exact hfield rfl
  obtain ⟨htake, hdrop⟩ := while_append hflags ds
  simp only [takeSpec, htake, hdrop, takeField_append hfield, takePrecision_append hprecision,
    takeLength_append hlength]
  obtain ⟨c, rest, hrest⟩ := List.exists_cons_of_ne_nil hlength
  rw [hrest]
  rfl

theorem parse_append (hcs : ∀ c ∈ cs, c ≠ 0) (hds : ∀ c ∈ ds, c ≠ 0) :
    Complete (parse cs) → parse (cs ++ ds) = parse cs ++ parse ds := by
  refine format_induction (fun _ => rfl) (fun c cs hc ih hcomplete => ?_) (fun cs hcs ih hcomplete => ?_) cs hcs
  · rw [parse_lit hc, complete_lit] at hcomplete
    rw [List.cons_append, parse_lit hc, parse_lit hc, ih hcomplete, List.cons_append]
  · rw [parse_spec hcs, complete_spec] at hcomplete
    have happend : ∀ c ∈ cs ++ ds, c ≠ 0 := fun c hc => (List.mem_append.mp hc).elim (hcs c) (hds c)
    rw [List.cons_append, parse_spec happend, takeSpec_append hcomplete.1, ih hcomplete.2, parse_spec hcs,
      List.cons_append]

end

/-! ## The text that is written -/

/-- What `_atoi` makes of digits. -/
def decimal (ds : List (BitVec 8)) : Nat := ds.foldl (fun i c => (i * 10 + (c.toNat - 0x30)) % 2 ^ 32) 0

def flagsOf (cs : List (BitVec 8)) : Flags :=
  { Flags.none with
    zeropad := decide (0x30 ∈ cs)
    left := decide (0x2D ∈ cs)
    plus := decide (0x2B ∈ cs)
    space := decide (0x20 ∈ cs)
    hash := decide (0x23 ∈ cs) }

def Field.asWidth (f : Field) (flags : Flags) (va : VaList) : Directive × VaList :=
  match f with
  | .absent => (⟨flags, 0, 0⟩, va)
  | .digits ds => (⟨flags, decimal ds, 0⟩, va)
  | .star =>
      let w : BitVec 32 := va.next.1.setWidth 32
      if w.toInt < 0 then (⟨{ flags with left := true }, (-w).toNat, 0⟩, va.next.2)
      else (⟨flags, w.toNat, 0⟩, va.next.2)

def Field.asPrecision (f : Field) (va : VaList) : Nat × VaList :=
  match f with
  | .absent => (0, va)
  | .digits ds => (decimal ds, va)
  | .star =>
      let prec : BitVec 32 := va.next.1.setWidth 32
      (if 0 < prec.toInt then prec.toNat else 0, va.next.2)

def lengthFlags (flags : Flags) : List (BitVec 8) → Flags
  | [] => flags
  | [c] => if c = 0x68 then { flags with short := true } else { flags with long := true }
  | c :: _ :: _ =>
      if c = 0x68 then { flags with short := true, char := true } else { flags with long := true, longLong := true }

/-- The directive, and the arguments behind its own fields. -/
def Spec.eval (sp : Spec) (va : VaList) : Directive × VaList :=
  let width := sp.width.asWidth (flagsOf sp.flags) va
  let precision := (sp.precision.map fun f => f.asPrecision width.2).getD (0, width.2)
  let flags := { width.1.flags with precision := sp.precision.isSome }
  (⟨lengthFlags flags sp.length, width.1.width, precision.1⟩, precision.2)

/-- `text` on its side of `n` spaces -/
def justify (left : Bool) (n : Nat) (text : List (BitVec 8)) : List (BitVec 8) :=
  if left then text ++ List.replicate n 0x20 else List.replicate n 0x20 ++ text

def charText (d : Directive) (word : BitVec 64) : List (BitVec 8) :=
  justify d.flags.left (d.width - 1) [word.setWidth 8]

/-- The characters of a string that its precision leaves. -/
def shown (d : Directive) (cs : List (BitVec 8)) : List (BitVec 8) :=
  if d.flags.precision then cs.take d.precision else cs

def stringText (d : Directive) (cs : List (BitVec 8)) : List (BitVec 8) :=
  justify d.flags.left (d.width - (shown d cs).length % 2 ^ 32) (shown d cs)

def pointerText (d : Directive) (word : BitVec 64) : List (BitVec 8) :=
  numberText word.toNat false 16 d.precision 16 { d.flags with zeropad := true, uppercase := true }

/-- The strings that the arguments point to are `str`. -/
def Spec.expand (str : BitVec 64 → List (BitVec 8)) (sp : Spec) (va : VaList) : List (BitVec 8) × VaList :=
  let (d, va) := sp.eval va
  let (word, rest) := va.next
  if isInteger sp.specifier then (integerText sp.specifier d word, rest)
  else if sp.specifier = 0x63 then (charText d word, rest)
  else if sp.specifier = 0x73 then (stringText d (str word), rest)
  else if sp.specifier = 0x70 then (pointerText d word, rest)
  else ([sp.specifier], va)

/-- The text of the items, and the arguments that are left. -/
def expand (str : BitVec 64 → List (BitVec 8)) : List Item → VaList → List (BitVec 8) × VaList
  | [], va => ([], va)
  | .lit c :: items, va => (c :: (expand str items va).1, (expand str items va).2)
  | .spec sp :: items, va =>
      let first := sp.expand str va
      (first.1 ++ (expand str items first.2).1, (expand str items first.2).2)

theorem expand_append (str : BitVec 64 → List (BitVec 8)) (items items' : List Item) (va : VaList) :
    expand str (items ++ items') va =
      ((expand str items va).1 ++ (expand str items' (expand str items va).2).1,
        (expand str items' (expand str items va).2).2) := by
  induction items generalizing va with
  | nil => rfl
  | cons item items ih =>
      cases item with
      | lit c =>
          rw [List.cons_append, expand, ih]
          rfl
      | spec sp =>
          rw [List.cons_append, expand, ih]
          simp only [expand, List.append_assoc]

theorem eval_arg (sp : Spec) (va : VaList) : (sp.eval va).2.arg = va.arg := by
  have hwidth : (sp.width.asWidth (flagsOf sp.flags) va).2.arg = va.arg := by
    cases sp.width with
    | absent => rfl
    | digits ds => rfl
    | star =>
        simp only [Field.asWidth]
        split <;> rfl
  rw [Spec.eval]
  simp only
  cases sp.precision with
  | none => exact hwidth
  | some f => cases f <;> exact hwidth

theorem expand_arg (str : BitVec 64 → List (BitVec 8)) (items : List Item) (va : VaList) :
    (expand str items va).2.arg = va.arg := by
  induction items generalizing va with
  | nil => rfl
  | cons item items ih =>
      cases item with
      | lit c => exact ih va
      | spec sp =>
          rw [expand]
          simp only
          rw [ih, Spec.expand]
          simp only
          split_ifs <;> exact eval_arg sp va

/-- The same arguments are left. -/
def VaList.Same (va va' : VaList) : Prop := ∀ i, va.arg (va.taken + i) = va'.arg (va'.taken + i)

section

variable {va va' : VaList}

theorem VaList.Same.next (h : va.Same va') : va.next.1 = va'.next.1 ∧ va.next.2.Same va'.next.2 := by
  refine ⟨h 0, fun i => ?_⟩
  have hi := h (1 + i)
  rwa [← Nat.add_assoc, ← Nat.add_assoc] at hi

theorem VaList.Same.eval (h : va.Same va') (sp : Spec) :
    (sp.eval va).1 = (sp.eval va').1 ∧ (sp.eval va).2.Same (sp.eval va').2 := by
  obtain ⟨hwidth, hva⟩ : (sp.width.asWidth (flagsOf sp.flags) va).1 = (sp.width.asWidth (flagsOf sp.flags) va').1 ∧
      (sp.width.asWidth (flagsOf sp.flags) va).2.Same (sp.width.asWidth (flagsOf sp.flags) va').2 := by
    cases sp.width with
    | absent => exact ⟨rfl, h⟩
    | digits ds => exact ⟨rfl, h⟩
    | star =>
        obtain ⟨hword, hrest⟩ := h.next
        simp only [Field.asWidth, hword]
        split
        · exact ⟨rfl, hrest⟩
        · exact ⟨rfl, hrest⟩
  simp only [Spec.eval, hwidth]
  cases sp.precision with
  | none => exact ⟨rfl, hva⟩
  | some f =>
      cases f with
      | absent => exact ⟨rfl, hva⟩
      | digits ds => exact ⟨rfl, hva⟩
      | star =>
          obtain ⟨hword, hrest⟩ := hva.next
          simp only [Option.map_some, Option.getD_some, Field.asPrecision, hword, true_and]
          exact hrest

theorem VaList.Same.expandSpec (h : va.Same va') (str : BitVec 64 → List (BitVec 8)) (sp : Spec) :
    (sp.expand str va).1 = (sp.expand str va').1 ∧ (sp.expand str va).2.Same (sp.expand str va').2 := by
  obtain ⟨hdir, hva⟩ := h.eval sp
  obtain ⟨hword, hrest⟩ := hva.next
  simp only [Spec.expand, hdir, hword]
  split_ifs
  · exact ⟨rfl, hrest⟩
  · exact ⟨rfl, hrest⟩
  · exact ⟨rfl, hrest⟩
  · exact ⟨rfl, hrest⟩
  · exact ⟨rfl, hva⟩

/-- The text depends on the arguments that are left only. -/
theorem VaList.Same.expand (h : va.Same va') (str : BitVec 64 → List (BitVec 8)) (items : List Item) :
    (Kprintf.expand str items va).1 = (Kprintf.expand str items va').1 := by
  induction items generalizing va va' with
  | nil => rfl
  | cons item items ih =>
      cases item with
      | lit c => exact congrArg (c :: ·) (ih h)
      | spec sp =>
          obtain ⟨htext, hrest⟩ := h.expandSpec str sp
          rw [Kprintf.expand, Kprintf.expand, htext, ih hrest]

end

end Kprintf
end GuideOS
