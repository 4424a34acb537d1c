import Freestanding.Proofs.Binding.Origin
import Freestanding.Proofs.Name.Plain
import Mathlib.Data.List.Induction

/-!
# What a scan finds

A scan goes through a tree of scopes and turns cells into variables.  Of two cells at one address the
later one counts, wherever in the tree the two are, and cells whose contents have no static form are
listed as errors.  So what a scan finds is a matter of the order in which cells are visited: each scope
before the scopes inside it, these one after the other, and each cell under the path of its scope.

## Main definitions

* `Scope.preorder` — the scopes of a tree with their paths, in the order in which they are visited.
* `Entry.Selected`, `Scope.selection` — the cells that are to become variables, in that order.
* `Value.Encodes` — the static form of a value.
* `Value.Shapeless` — a value that could be stored has no static form.
* `Candidate.Becomes`, `Candidate.complaint` — what becomes of one cell.
* `BindingScan.Exact` — what becomes of all of them.

## Main results

* `Scope.candidates_eq_selection` — the cells that a scan visits.
* `Value.encodes_or_shapeless` — a value that could be stored has a static form, or it is shapeless.
* `BindingScan.bindings_addCandidate`, `BindingScan.bindings_foldl` — one cell, and all of them.
* `Scope.scan_exact` — **what a scan finds.**
-/

namespace Freestanding

/-! ### The cells of a tree -/

namespace Scope

mutual

/-- The scopes of a tree with their paths: a scope comes before those inside it. -/
def preorder (path : ScopePath) : Scope → List (ScopePath × Scope)
  | .mk name entries children => (path, .mk name entries children) :: preorderInside path children

/-- The scopes of the trees inside a scope. -/
def preorderInside (path : ScopePath) : List Scope → List (ScopePath × Scope)
  | [] => []
  | s :: rest => preorder (path ++ [s.name]) s ++ preorderInside path rest

end

end Scope

/-- An entry whose cell is to become a variable: it is not imported, its name was not made up by the
compiler, and it is an assignable cell that holds neither a function, nor a type, nor a string. -/
structure Entry.Selected (e : Entry) : Prop where
  /-- The name belongs to this scope. -/
  own : e.imported = false
  /-- The name does not start with the mark of the compiler. -/
  named : ¬ ['#'] <+: e.name
  /-- The cell can be assigned. -/
  ref : e.cell.kind = .ref
  /-- It holds no function. -/
  ne_function : ∀ name, e.cell.value ≠ .function name
  /-- It holds no type. -/
  ne_type : ∀ name, e.cell.value ≠ .type name
  /-- It holds no string. -/
  ne_string : ∀ content, e.cell.value ≠ .string content

theorem Entry.isInternal_eq_true_iff (e : Entry) : e.isInternal = true ↔ ['#'] <+: e.name := by
  rw [isInternal, beq_iff_eq]
  cases e.name with
  | nil => simp
  | cons c name => simp [eq_comm]

theorem Value.isStorable_eq_true_iff (v : Value) : v.isStorable = true ↔
    (∀ name, v ≠ .function name) ∧ (∀ name, v ≠ .type name) ∧ ∀ content, v ≠ .string content := by
  cases v <;> simp [isStorable]

theorem Entry.isCandidate_iff_selected (e : Entry) : e.isCandidate = true ↔ e.Selected := by
  simp only [isCandidate, Bool.and_eq_true, Bool.not_eq_true', beq_iff_eq,
    Value.isStorable_eq_true_iff, ← Bool.not_eq_true, isInternal_eq_true_iff]
  constructor
  · intro h
    obtain ⟨⟨⟨himported, hname⟩, hkind⟩, hfunction, htype, hstring⟩ := h
    exact ⟨by simpa using himported, hname, hkind, hfunction, htype, hstring⟩
  · intro h
    exact ⟨⟨⟨by simpa using h.own, h.named⟩, h.ref⟩, h.ne_function, h.ne_type, h.ne_string⟩

instance (e : Entry) : Decidable e.Selected :=
  decidable_of_iff _ e.isCandidate_iff_selected

namespace Scope

/-- The cells that are to become variables, each with the path of its scope. -/
def selection (root : Scope) : List Candidate :=
  (root.preorder [root.name]).flatMap fun (path, s) =>
    (s.entries.filter (·.Selected)).map (Candidate.mk path)

mutual

theorem candidatesAt_eq (path : ScopePath) : ∀ s : Scope, s.candidatesAt path =
    (s.preorder path).flatMap fun (path, s) => (s.entries.filter (·.Selected)).map (Candidate.mk path)
  | .mk name entries children => by
    have hown : entries.filter Entry.isCandidate = entries.filter (·.Selected) :=
      List.filter_congr fun e _ => Bool.eq_iff_iff.mpr (by simp [e.isCandidate_iff_selected])
    rw [candidatesAt, preorder, List.flatMap_cons, candidatesInside_eq path children, hown]
    rfl

private theorem candidatesInside_eq (path : ScopePath) : ∀ ss : List Scope, candidatesInside path ss =
    (preorderInside path ss).flatMap fun (path, s) =>
      (s.entries.filter (·.Selected)).map (Candidate.mk path)
  | [] => by rw [candidatesInside, preorderInside, List.flatMap_nil]
  | s :: rest => by
    rw [candidatesInside, preorderInside, List.flatMap_append, candidatesAt_eq _ s,
      candidatesInside_eq path rest]
    rfl

end

/-- **The cells that a scan visits** are those that are to become variables, in preorder. -/
theorem candidates_eq_selection (root : Scope) : root.candidates = root.selection :=
  candidatesAt_eq [root.name] root

theorem selected_of_mem_selection {root : Scope} {c : Candidate} (hc : c ∈ root.selection) :
    c.entry.Selected := by
  obtain ⟨x, -, hc⟩ := List.mem_flatMap.mp hc
  obtain ⟨e, he, rfl⟩ := List.mem_map.mp hc
  exact of_decide_eq_true (List.mem_filter.mp he).2

end Scope

/-! ### Static forms -/

namespace Value

/-- The static form of a value that could be stored: its IR type, its initial value and its alignment in
bytes.  Integers have up to 128 bits, floating-point numbers are written as the bits of a 64-bit one, and
bytes stand in a string with escapes. -/
inductive Encodes : Value → (type initial : Text) → (align : Nat) → Prop
  /-- An integer. -/
  | int {bits : Nat} (value : Int) (hpos : 0 < bits) (hle : bits ≤ 128) :
      Encodes (.int bits value) ("i" ++ Text.decimal bits) (Text.decimalInt value) (min (max (bits / 8) 1) 16)
  /-- A truth value. -/
  | bool (value : Bool) : Encodes (.bool value) "i8" (if value then "1" else "0") 1
  /-- A 32-bit floating-point number. -/
  | float32 (pattern : UInt32) :
      Encodes (.float32 pattern) "float" ("0x" ++ Text.hexUpper 16 (widen pattern).toNat) 4
  /-- A 64-bit floating-point number. -/
  | float64 (pattern : UInt64) :
      Encodes (.float64 pattern) "double" ("0x" ++ Text.hexUpper 16 pattern.toNat) 8
  /-- The null pointer. -/
  | null : Encodes (.pointer 0) "ptr" "null" 8
  /-- Any other pointer. -/
  | pointer {address : UInt64} (hne : address ≠ 0) : Encodes (.pointer address) "ptr"
      ("inttoptr (i64 " ++ Text.decimal address.toNat ++ " to ptr)") 8
  /-- No bytes. -/
  | noBytes (typeName : Text) : Encodes (.bytes typeName []) "[0 x i8]" "zeroinitializer" 8
  /-- Some bytes. -/
  | bytes (typeName : Text) {content : List UInt8} (hne : content ≠ []) : Encodes (.bytes typeName content)
      ("[" ++ Text.decimal content.length ++ " x i8]") ("c\"" ++ Constant.escape content ++ "\"") 8

/-- A value that could be stored but has no static form: an object without a layout, or an integer of no
bits or of more than 128. -/
def Shapeless : Value → Prop
  | .object _ => True
  | .int bits _ => bits = 0 ∨ 128 < bits
  | _ => False

instance : DecidablePred Shapeless
  | .object _ => .isTrue trivial
  | .int bits _ => inferInstanceAs (Decidable (bits = 0 ∨ 128 < bits))
  | .float32 _ | .float64 _ | .bool _ | .pointer _ | .bytes .. | .string _ | .function _ | .type _ =>
    .isFalse id

theorem constant?_of_encodes {v : Value} {type initial : Text} {align : Nat}
    (h : v.Encodes type initial align) : v.constant? = some ⟨type, initial, align⟩ := by
  cases h with
  | int value hpos hle => exact if_neg (by omega)
  | bool value => rfl
  | float32 pattern => rfl
  | float64 pattern => rfl
  | null => rfl
  | pointer hne => rw [constant?, if_neg hne]
  | noBytes typeName => rfl
  | bytes typeName hne =>
    rw [constant?, Constant.ofBytes, if_neg (by simpa using hne)]

theorem encodes_or_shapeless {v : Value} (hv : v.isStorable = true) :
    (∃ type initial align, v.Encodes type initial align) ∨ v.constant? = none ∧ v.Shapeless := by
  cases v with
  | int bits n =>
    by_cases hbits : bits = 0 ∨ 128 < bits
    · exact .inr ⟨if_pos hbits, hbits⟩
    · exact .inl ⟨_, _, _, .int n (by omega) (by omega)⟩
  | float32 pattern => exact .inl ⟨_, _, _, .float32 pattern⟩
  | float64 pattern => exact .inl ⟨_, _, _, .float64 pattern⟩
  | bool value => exact .inl ⟨_, _, _, .bool value⟩
  | pointer address =>
    rcases eq_or_ne address 0 with rfl | hne
    · exact .inl ⟨_, _, _, .null⟩
    · exact .inl ⟨_, _, _, .pointer hne⟩
  | bytes typeName content =>
    rcases eq_or_ne content [] with rfl | hne
    · exact .inl ⟨_, _, _, .noBytes typeName⟩
    · exact .inl ⟨_, _, _, .bytes typeName hne⟩
  | string content => cases hv
  | function name => cases hv
  | type name => cases hv
  | object typeName => exact .inr ⟨rfl, trivial⟩

private theorem not_shapeless_of_encodes {v : Value} {type initial : Text} {align : Nat}
    (h : v.Encodes type initial align) : ¬ v.Shapeless := by
  cases h with
  | int value hpos hle =>
    show ¬ (_ = 0 ∨ 128 < _)
    omega
  | bool | float32 | float64 | null | pointer | noBytes | bytes => exact id

/-- A value that could be stored has a static form, or it is shapeless. -/
theorem constant?_eq_none_iff {v : Value} (hv : v.isStorable = true) : v.constant? = none ↔ v.Shapeless := by
  rcases encodes_or_shapeless hv with ⟨type, initial, align, h⟩ | ⟨hnone, hshapeless⟩
  · rw [constant?_of_encodes h]
    exact iff_of_false (Option.some_ne_none _) (not_shapeless_of_encodes h)
  · exact iff_of_true hnone hshapeless

theorem encodes_iff {v : Value} (hv : v.isStorable = true) {type initial : Text} {align : Nat} :
    v.Encodes type initial align ↔ v.constant? = some ⟨type, initial, align⟩ := by
  refine ⟨constant?_of_encodes, fun h => ?_⟩
  rcases encodes_or_shapeless hv with ⟨_, _, _, hencodes⟩ | ⟨hnone, -⟩
  · obtain ⟨rfl, rfl, rfl⟩ := Constant.mk.inj (Option.some.inj ((constant?_of_encodes hencodes).symm.trans h))
    exact hencodes
  · rw [hnone] at h
    cases h

end Value

/-! ### What becomes of a cell -/

namespace Candidate

/-- The variable that a cell becomes, under the path of its scope. -/
structure Becomes (c : Candidate) (b : Binding) : Prop where
  /-- It has the address of the cell, -/
  address : b.address = c.entry.address
  /-- its name -/
  identifier : b.identifier = c.entry.name
  /-- and its scope. -/
  owner : b.owner = c.owner
  /-- Its output name is made of the names of both. -/
  mangled : b.mangled = c.owner.mangle c.entry.name
  /-- Its symbol is the output name behind a sigil, in quotes if it is empty or starts with a digit. -/
  symbol : b.symbol =
    if b.mangled.head?.any (!·.isDigit) then '@' :: b.mangled else '@' :: '"' :: (b.mangled ++ ['"'])
  /-- Its lines consist of the symbol and of the static form of the contents. -/
  lines : ∃ type initial align, c.entry.cell.value.Encodes type initial align ∧
    b.definition =
      b.symbol ++ " = global " ++ type ++ " " ++ initial ++ ", align " ++ Text.decimal align ∧
    b.declaration = b.symbol ++ " = external global " ++ type ++ ", align " ++ Text.decimal align

/-- The error about a cell whose contents have no static form. -/
def complaint (c : Candidate) : Error :=
  .unsupportedValue (c.owner.dotted ++ "." ++ c.entry.name) c.entry.cell.value.typeName

variable {c : Candidate}

theorem isStorable_of_selected (hc : c.entry.Selected) : c.entry.cell.value.isStorable = true :=
  (Value.isStorable_eq_true_iff _).mpr ⟨hc.ne_function, hc.ne_type, hc.ne_string⟩

/-- The variable of a cell is made from the constant of its contents. -/
theorem becomes_iff (hc : c.entry.Selected) {b : Binding} : c.Becomes b ↔
    ∃ k, c.entry.cell.value.constant? = some k ∧ b = .ofConstant c.entry.address c.entry.name c.owner k := by
  constructor
  · intro h
    obtain ⟨type, initial, align, hencodes, hdefinition, hdeclaration⟩ := h.lines
    refine ⟨⟨type, initial, align⟩, Value.constant?_of_encodes hencodes, ?_⟩
    have hsymbol : b.symbol = Name.symbol (c.owner.mangle c.entry.name) := congrArg Name.symbol h.mangled
    rw [hsymbol] at hdefinition hdeclaration
    exact Binding.ext h.address h.identifier h.owner h.mangled hdefinition hdeclaration
  · rintro ⟨k, hk, rfl⟩
    exact ⟨rfl, rfl, rfl, rfl, (ScopePath.plain_mangle _ _).symbol_eq, k.type, k.initial, k.align,
      (Value.encodes_iff (isStorable_of_selected hc)).mpr hk, rfl, rfl⟩

/-- A cell that is to become a variable does so unless it holds a shapeless value. -/
theorem exists_becomes_iff (hc : c.entry.Selected) :
    (∃ b, c.Becomes b) ↔ ¬ c.entry.cell.value.Shapeless := by
  rw [← Value.constant?_eq_none_iff (isStorable_of_selected hc)]
  simp only [becomes_iff hc]
  constructor
  · rintro ⟨b, k, hk, -⟩
    rw [hk]
    exact Option.some_ne_none k
  · intro h
    obtain ⟨k, hk⟩ := Option.ne_none_iff_exists'.mp h
    exact ⟨_, k, hk, rfl⟩

end Candidate

/-! ### What becomes of all cells -/

namespace BindingScan

variable {c : Candidate}

/-- Adding a cell: under its address stands its variable, if it has become one. -/
theorem bindings_addCandidate (hc : c.entry.Selected) (scan : BindingScan) (a : UInt64) (b : Binding) :
    (scan.addCandidate c).value.bindings[a]? = some b ↔
      c.entry.address = a ∧ c.Becomes b ∨
        (c.entry.address = a → c.entry.cell.value.Shapeless) ∧ scan.bindings[a]? = some b := by
  rw [addCandidate_bindings, Candidate.becomes_iff hc,
    ← Value.constant?_eq_none_iff (Candidate.isStorable_of_selected hc)]
  cases hk : c.entry.cell.value.constant? with
  | none => simp
  | some k =>
    rw [Std.ExtTreeMap.getElem?_insert]
    by_cases ha : c.entry.address = a
    · simp [ha, eq_comm]
    · simp [ha]

/-- Adding a cell: there is an error about it, if it has not become a variable. -/
theorem rejected_addCandidate (hc : c.entry.Selected) (scan : BindingScan) :
    (scan.addCandidate c).value.rejected =
      scan.rejected ++ if c.entry.cell.value.Shapeless then [c.complaint] else [] := by
  have hshapeless := Value.constant?_eq_none_iff (Candidate.isStorable_of_selected hc)
  rw [addCandidate, add, Logged.value_bind, Binding.make]
  cases hk : c.entry.cell.value.constant? with
  | some k =>
    rw [hk] at hshapeless
    rw [if_neg (fun h => absurd (hshapeless.mpr h) (Option.some_ne_none k)), List.append_nil]
    rfl
  | none =>
    rw [if_pos (hshapeless.mp hk)]
    rfl

/-- Under an address stands the variable of the last cell with that address that has become one. -/
theorem bindings_foldl {cells : List Candidate} (hcells : ∀ c ∈ cells, c.entry.Selected) (a : UInt64)
    (b : Binding) :
    (cells.foldl (fun s c => (addCandidate s c).value) {}).bindings[a]? = some b ↔
      ∃ before c after, cells = before ++ c :: after ∧ c.entry.address = a ∧ c.Becomes b ∧
        ∀ c' ∈ after, c'.entry.address = a → c'.entry.cell.value.Shapeless := by
  induction cells using List.reverseRecOn with
  | nil => simp
  | append_singleton cells last ih =>
    have hlast : last.entry.Selected := hcells last (by simp)
    rw [List.foldl_append, List.foldl_cons, List.foldl_nil, bindings_addCandidate hlast,
      ih fun c hc => hcells c (List.mem_append_left _ hc)]
    constructor
    · rintro (⟨ha, hb⟩ | ⟨hshapeless, before, c, after, rfl, ha, hb, hafter⟩)
      · exact ⟨cells, last, [], rfl, ha, hb, by simp⟩
      · refine ⟨before, c, after ++ [last], by simp, ha, hb, fun c' hc' => ?_⟩
        rcases List.mem_append.mp hc' with hc' | hc'
        · exact hafter c' hc'
        · exact List.mem_singleton.mp hc' ▸ hshapeless
    · rintro ⟨before, c, after, he, ha, hb, hafter⟩
      rcases List.eq_nil_or_concat after with rfl | ⟨after, m, rfl⟩
      · obtain rfl : c = last := by simpa using (List.append_inj_right' he rfl).symm
        exact .inl ⟨ha, hb⟩
      · -- the cell is not the last one, so the last one decides nothing
        rw [List.concat_eq_append, ← List.cons_append, ← List.append_assoc] at he
        obtain ⟨rfl, hm⟩ := List.append_inj' he rfl
        obtain rfl : last = m := by simpa using hm
        exact .inr ⟨hafter last (by simp), before, c, after, rfl, ha, hb, fun c' hc' =>
          hafter c' (by simp [hc'])⟩

/-- The errors are those about the cells that have not become variables, in order. -/
theorem rejected_foldl {cells : List Candidate} (hcells : ∀ c ∈ cells, c.entry.Selected) :
    (cells.foldl (fun s c => (addCandidate s c).value) {}).rejected =
      (cells.filter (·.entry.cell.value.Shapeless)).map Candidate.complaint := by
  induction cells using List.reverseRecOn with
  | nil => rfl
  | append_singleton cells last ih =>
    rw [List.foldl_append, List.foldl_cons, List.foldl_nil, rejected_addCandidate (hcells last (by simp)),
      ih fun c hc => hcells c (List.mem_append_left _ hc), List.filter_append, List.map_append]
    by_cases h : last.entry.cell.value.Shapeless <;> simp [h]

/-- What a scan makes of the given cells, in the order in which it visits them. -/
structure Exact (cells : List Candidate) (scan : BindingScan) : Prop where
  /-- Under an address stands the variable of the last cell with that address that has a static form; where
  no cell with that address has one, there is nothing. -/
  bindings : ∀ (a : UInt64) (b : Binding), scan.bindings[a]? = some b ↔
    ∃ before c after, cells = before ++ c :: after ∧ c.entry.address = a ∧ c.Becomes b ∧
      ∀ c' ∈ after, c'.entry.address = a → c'.entry.cell.value.Shapeless
  /-- There is one error for each cell that holds a shapeless value, with the path and the name of that
  cell, in order. -/
  rejected : scan.rejected =
    (cells.filter (·.entry.cell.value.Shapeless)).map Candidate.complaint
  /-- A cell becomes a variable or is rejected, and not both. -/
  split : ∀ c ∈ cells, (∃ b, c.Becomes b) ↔ ¬ c.entry.cell.value.Shapeless

end BindingScan

/-- **What a scan finds.**  Let the cells be those that are to become variables, in preorder and under the
paths of their scopes.  Then each address leads to the variable of the last cell with that address whose
contents have a static form, and no other address leads anywhere; the errors are about the cells that hold
an object without a layout or an integer of an impossible width, in order; and each cell is one or the
other. -/
theorem Scope.scan_exact (root : Scope) : BindingScan.Exact root.selection root.scan.value := by
  have hselected : ∀ c ∈ root.selection, c.entry.Selected := fun c hc => selected_of_mem_selection hc
  have hscan : root.scan.value =
      root.selection.foldl (fun s c => (BindingScan.addCandidate s c).value) {} := by
    rw [scan_eq_foldlM, Logged.value_foldlM, candidates_eq_selection]
  rw [hscan]
  exact ⟨BindingScan.bindings_foldl hselected, BindingScan.rejected_foldl hselected,
    fun c hc => Candidate.exists_becomes_iff (hselected c hc)⟩

/-- Two cells at one address, of which the inner one counts, two with other static forms, one that cannot
be stored, and an internal name. -/
example : (Scope.mk "Main"
      [⟨"x", 256, ⟨.ref, .int 64 1⟩, false⟩, ⟨"sym", 264, ⟨.ref, .object "Symbol"⟩, false⟩,
        ⟨"#tmp", 272, ⟨.ref, .bool true⟩, false⟩, ⟨"one", 280, ⟨.ref, .float32 0x3F800000⟩, false⟩,
        ⟨"b", 288, ⟨.ref, .bytes "T" [34, 65]⟩, false⟩]
      [.mk "Inner" [⟨"y", 256, ⟨.ref, .bool true⟩, false⟩] []]).scan.value =
    ⟨(((∅ : Bindings).insert 256 ⟨256, "y", ["Main", "Inner"], "Main_Inner_y",
          "@Main_Inner_y = global i8 1, align 1", "@Main_Inner_y = external global i8, align 1"⟩).insert
        280 ⟨280, "one", ["Main"], "Main_one", "@Main_one = global float 0x3FF0000000000000, align 4",
          "@Main_one = external global float, align 4"⟩).insert
        288 ⟨288, "b", ["Main"], "Main_b", "@Main_b = global [2 x i8] c\"\\22A\", align 8",
          "@Main_b = external global [2 x i8], align 8"⟩,
      [.unsupportedValue "Main.sym" "Symbol"]⟩ := by
  rfl

end Freestanding
