import Freestanding.Proofs.Json.Records
import Freestanding.Scope.Json

/-!
# Scopes as texts

A tree of scopes is written as a text and read back from it.  What is read back is the tree that was
written, with every name, address and cell, as long as the text is not nested too deeply, with one
exception: an integer is written with its width, but no integer is ever read.  A single integer anywhere
in a tree makes the whole tree unreadable, whatever else is in it.

Floating-point numbers are left out here: they are written as decimals, and whether the decimal is read
as the same number is a question of its own.

## Main definitions

* `Scope.values` — the values in the cells of a tree.
* `Value.IsFloat` — a floating-point number.

## Main results

* `Value.decode?_toJson`, `Entry.decode?_toJson`, `Scope.decode?_toJson` — values, entries and scopes.
* `Scope.decodeText?_render_toJson` — **a tree of scopes survives being written, unless it holds an
  integer.**
-/

namespace Freestanding

/-! ### Values -/

namespace Value

/-- A floating-point number. -/
def IsFloat (v : Value) : Prop :=
  v.kind = .float32 ∨ v.kind = .float64

instance (v : Value) : Decidable v.IsFloat :=
  inferInstanceAs (Decidable (_ ∨ _))

/-- A value of a kind that is read: any but an integer. -/
def isReadable (v : Value) : Bool :=
  v.kind != .int

/-- The members of the document of a value. -/
def members (v : Value) : List (Text × Json) :=
  ("kind", .ofText v.kind.name) :: v.kind.fields.zip v.jsonFields

theorem length_fields (v : Value) : v.kind.fields.length = v.jsonFields.length := by
  cases v <;> rfl

theorem nodup_members (v : Value) : (v.members.map (·.1)).Nodup := by
  have hnodup : ∀ k : Kind, (("kind" : Text) :: k.fields).Nodup := by
    intro k
    cases k <;> decide
  rw [members, List.map_cons, List.map_fst_zip (Nat.le_of_eq v.length_fields)]
  exact hnodup v.kind

private theorem choice?_kind (whole : Bool) (k : Kind) : choice? kindsByName whole (.ofText k.name) = some k := by
  cases k <;> rfl

/-- A value is read from its members, if its document can be taken in whole. -/
theorem decode?_toJson_eq (whole : Bool) (room : Nat) (v : Value) :
    decode? whole room v.toJson =
      if Json.isRepresentable room v.toJson then ofSlots? v.kind (v.jsonFields.map some) else none := by
  have hkind : Json.member? v.members "kind" = some (some (.ofText v.kind.name)) :=
    Json.member?_of_mem v.nodup_members List.mem_cons_self
  have hfields : v.kind.fields.mapM (Json.member? v.members) = some (v.jsonFields.map some) := by
    have hsub : v.kind.fields.zip v.jsonFields ⊆ v.members := List.subset_cons_self _ _
    have h := Json.mapM_member? v.nodup_members hsub
    rwa [List.map_fst_zip (Nat.le_of_eq v.length_fields),
      List.map_snd_zip (Nat.le_of_eq v.length_fields.symm)] at h
  have hdocument : v.toJson = .object (v.members.map fun m => (Json.Literal.ofText m.1, m.2)) := rfl
  rw [hdocument, decode?]
  cases Json.isRepresentable room (.object (v.members.map fun m => (Json.Literal.ofText m.1, m.2))) with
  | false => rfl
  | true =>
    show (Json.named? _).bind _ = _
    rw [Json.named?_record]
    show (Json.member? v.members "kind").bind _ = _
    rw [hkind]
    show (choice? kindsByName whole (.ofText v.kind.name)).bind _ = _
    rw [choice?_kind]
    show (v.kind.fields.mapM (Json.member? v.members)).bind _ = _
    rw [hfields]
    rfl

private theorem mapM_byte? (content : List UInt8) :
    (content.map fun b => Json.ofNat b.toNat).mapM (Json.byte? 0) = some content := by
  induction content with
  | nil => rfl
  | cons b content ih =>
    have hb : b.toNat < 256 := b.toNat_lt
    have hsize : b.toNat < UInt64.size := Nat.lt_trans hb (by decide)
    have hbyte : Json.byte? 0 (Json.ofNat b.toNat) = some b := by
      rw [Json.ofNat, Json.byte?, Json.toWord?_ofNat hsize, Option.bind_some, if_pos]
      · simp
      · rw [UInt64.lt_iff_toNat_lt]
        simpa using hb
    rw [List.map_cons, List.mapM_cons, hbyte, ih]
    rfl

/-- The members of a value give it back, unless it is an integer. -/
theorem ofSlots?_jsonFields {v : Value} (hfloat : ¬ v.IsFloat) :
    ofSlots? v.kind (v.jsonFields.map some) = if v.isReadable then some v else none := by
  cases v with
  | int bits value => rfl
  | float32 pattern => exact absurd (.inl rfl) hfloat
  | float64 pattern => exact absurd (.inr rfl) hfloat
  | bool value => rfl
  | pointer address =>
    show (Json.Numeral.toWord? { whole := Text.decimal address.toNat }).map pointer = _
    rw [Json.toWord?_toNat]
    rfl
  | bytes typeName content =>
    show ((content.map fun b => Json.ofNat b.toNat).mapM (Json.byte? 0)).bind _ = _
    rw [mapM_byte?]
    rfl
  | string content => rfl
  | function name => rfl
  | type name => rfl
  | object typeName => rfl

theorem mem_members {v : Value} {m : Text × Json} (hm : m ∈ v.members) :
    m.2 = .ofText v.kind.name ∨ m.2 ∈ v.jsonFields := by
  rcases List.mem_cons.mp hm with rfl | hm
  · exact .inl rfl
  · exact .inr (List.of_mem_zip hm).2

private theorem isRepresentable_jsonFields {v : Value} (hfloat : ¬ v.IsFloat) (hread : v.isReadable = true)
    {room : Nat} {j : Json} (hj : j ∈ v.jsonFields) (hroom : j.depth ≤ room) :
    Json.isRepresentable room j = true := by
  cases v with
  | int bits value => cases hread
  | float32 pattern => exact absurd (.inl rfl) hfloat
  | float64 pattern => exact absurd (.inr rfl) hfloat
  | bool value =>
    obtain rfl := List.mem_singleton.mp hj
    rw [Json.isRepresentable]
  | pointer address =>
    obtain rfl := List.mem_singleton.mp hj
    exact Json.isRepresentable_ofNat room address.toNat_lt
  | bytes typeName content =>
    rcases List.mem_cons.mp hj with rfl | hj
    · exact Json.isRepresentable_ofText room typeName
    obtain rfl := List.mem_singleton.mp hj
    obtain ⟨inner, rfl, -⟩ := Json.exists_room_of_array hroom
    rw [Json.isRepresentable_array, List.all_map]
    refine List.all_eq_true.mpr fun b _ => Json.isRepresentable_ofNat inner ?_
    exact Nat.lt_trans b.toNat_lt (by decide)
  | string text | function text | type text | object text =>
    obtain rfl := List.mem_singleton.mp hj
    exact Json.isRepresentable_ofText room text

private theorem canonical_jsonFields {v : Value} (hfloat : ¬ v.IsFloat) {j : Json} (hj : j ∈ v.jsonFields) :
    j.Canonical := by
  cases v with
  | int bits value =>
    rcases List.mem_cons.mp hj with rfl | hj
    · exact Json.canonical_ofNat bits
    obtain rfl := List.mem_singleton.mp hj
    exact Json.canonical_ofInt value
  | float32 pattern => exact absurd (.inl rfl) hfloat
  | float64 pattern => exact absurd (.inr rfl) hfloat
  | bool value =>
    obtain rfl := List.mem_singleton.mp hj
    rw [Json.Canonical]
    trivial
  | pointer address =>
    obtain rfl := List.mem_singleton.mp hj
    exact Json.canonical_ofNat address.toNat
  | bytes typeName content =>
    rcases List.mem_cons.mp hj with rfl | hj
    · exact Json.canonical_ofText typeName
    obtain rfl := List.mem_singleton.mp hj
    refine Json.canonical_array fun j hj => ?_
    obtain ⟨b, -, rfl⟩ := List.mem_map.mp hj
    exact Json.canonical_ofNat b.toNat
  | string text | function text | type text | object text =>
    obtain rfl := List.mem_singleton.mp hj
    exact Json.canonical_ofText text

private theorem isRepresentable_toJson {v : Value} (hfloat : ¬ v.IsFloat) (hread : v.isReadable = true) {room : Nat}
    (hroom : v.toJson.depth ≤ room) : Json.isRepresentable room v.toJson = true := by
  have hrecord : v.toJson = .record v.members := rfl
  rw [hrecord] at hroom ⊢
  obtain ⟨inner, rfl, hdepth⟩ := Json.exists_room_of_record hroom
  rw [Json.isRepresentable_record]
  refine List.all_eq_true.mpr fun m hm => ?_
  rcases mem_members hm with h | h
  · rw [h]
    exact Json.isRepresentable_ofText inner _
  · exact isRepresentable_jsonFields hfloat hread h (hdepth m hm)

theorem canonical_toJson {v : Value} (hfloat : ¬ v.IsFloat) : v.toJson.Canonical := by
  refine Json.canonical_record fun m hm => ?_
  rcases mem_members hm with h | h
  · rw [h]
    exact Json.canonical_ofText _
  · exact canonical_jsonFields hfloat h

/-- A value can be read back if there is room for it, unless it is an integer. -/
theorem decode?_toJson (whole : Bool) {v : Value} (hfloat : ¬ v.IsFloat) {room : Nat}
    (hroom : v.toJson.depth ≤ room) :
    decode? whole room v.toJson = if v.isReadable then some v else none := by
  rw [decode?_toJson_eq, ofSlots?_jsonFields hfloat]
  cases hread : v.isReadable with
  | false => simp
  | true => rw [isRepresentable_toJson hfloat hread hroom]; rfl

end Value

/-! ### Entries -/

namespace Entry

/-- The members of the document of an entry. -/
def members (e : Entry) : List (Text × Json) :=
  [("name", .ofText e.name), ("address", .ofNat e.address.toNat), ("cell", .ofText e.cell.kind.name),
    ("value", e.cell.value.toJson), ("imported", .bool e.imported)]

theorem nodup_members (e : Entry) : (e.members.map (·.1)).Nodup := by
  show (["name", "address", "cell", "value", "imported"] : List Text).Nodup
  decide

private theorem choice?_cell (k : CellKind) : Value.choice? CellKind.byName true (.ofText k.name) = some k := by
  cases k <;> rfl

/-- An entry is read if the value in its cell is. -/
theorem decode?_toJson_eq (room : Nat) (e : Entry) :
    decode? (room + 1) e.toJson =
      (Value.decode? true room e.cell.value.toJson).map fun v => { e with cell := ⟨e.cell.kind, v⟩ } := by
  have hmember : ∀ m ∈ e.members, Json.member? e.members m.1 = some (some m.2) := fun m =>
    Json.member?_of_mem e.nodup_members
  have hname : Json.member? e.members "name" = some (some (.ofText e.name)) := hmember _ (.head _)
  have haddress : Json.member? e.members "address" = some (some (.ofNat e.address.toNat)) :=
    hmember _ (.tail _ (.head _))
  have hcell : Json.member? e.members "cell" = some (some (.ofText e.cell.kind.name)) :=
    hmember _ (.tail _ (.tail _ (.head _)))
  have hvalue : Json.member? e.members "value" = some (some e.cell.value.toJson) :=
    hmember _ (.tail _ (.tail _ (.tail _ (.head _))))
  have himported : Json.member? e.members "imported" = some (some (.bool e.imported)) :=
    hmember _ (.tail _ (.tail _ (.tail _ (.tail _ (.head _)))))
  -- besides its own members an entry has those of its cell, and the kind of the cell is a text
  have hother : (e.members.filter fun m => !ownFields.contains m.1).all
      (fun m => Json.isRepresentable room m.2) = Json.isRepresentable room e.cell.value.toJson := by
    show (Json.isRepresentable room (.ofText e.cell.kind.name) &&
      (Json.isRepresentable room e.cell.value.toJson && true)) = _
    rw [Json.isRepresentable_ofText, Bool.true_and, Bool.and_true]
  have hdocument : e.toJson = .object (e.members.map fun m => (Json.Literal.ofText m.1, m.2)) := rfl
  have hword : Json.word? room (.ofNat e.address.toNat) = some e.address := Json.toWord?_toNat e.address
  have htext : Json.text? room (.ofText e.name) = some e.name := rfl
  have hbool : Json.bool? room (.bool e.imported) = some e.imported := rfl
  rw [hdocument, decode?]
  simp only [Json.named?_record, hname, haddress, himported, hcell, hvalue, hother, Json.required?,
    Json.optional?, hword, htext, hbool, choice?_cell, Option.bind_eq_bind, Option.bind_some]
  rw [Value.decode?_toJson_eq]
  cases Json.isRepresentable room e.cell.value.toJson with
  | false => rfl
  | true => cases Value.ofSlots? e.cell.value.kind (e.cell.value.jsonFields.map some) <;> rfl

/-- An entry can be read back if there is room for it, unless its cell holds an integer. -/
theorem decode?_toJson {e : Entry} (hfloat : ¬ e.cell.value.IsFloat) {room : Nat}
    (hroom : e.toJson.depth ≤ room) :
    decode? room e.toJson = if e.cell.value.isReadable then some e else none := by
  obtain ⟨inner, rfl, hdepth⟩ := Json.exists_room_of_record hroom
  have hvalue : e.cell.value.toJson.depth ≤ inner := hdepth _ (.tail _ (.tail _ (.tail _ (.head _))))
  rw [decode?_toJson_eq, Value.decode?_toJson true hfloat hvalue]
  cases e.cell.value.isReadable <;> rfl

theorem canonical_toJson {e : Entry} (hfloat : ¬ e.cell.value.IsFloat) : e.toJson.Canonical := by
  refine Json.canonical_record ?_
  simp only [List.forall_mem_cons]
  refine ⟨Json.canonical_ofText _, Json.canonical_ofNat _, Json.canonical_ofText _,
    Value.canonical_toJson hfloat, ?_, fun _ hm => by cases hm⟩
  rw [Json.Canonical]
  trivial

end Entry

/-! ### Scopes -/

namespace Scope

mutual

/-- The values in the cells of a scope and of the scopes inside it. -/
def values : Scope → List Value
  | .mk _ entries children => entries.map (·.cell.value) ++ valuesInside children

/-- The values in the cells of scopes and of the scopes inside them. -/
def valuesInside : List Scope → List Value
  | [] => []
  | s :: rest => s.values ++ valuesInside rest

end

/-- The members of the document of a scope. -/
def members : Scope → List (Text × Json)
  | .mk name entries children =>
    [("name", .ofText name), ("bindings", .array (entries.map Entry.toJson)),
      ("children", .array (toJsonAll children))]

theorem toJson_eq_record (s : Scope) : s.toJson = .record s.members := by
  obtain ⟨name, entries, children⟩ := s
  rw [toJson]
  rfl

/-- A scope is read if its entries and the scopes inside it are. -/
theorem decode?_toJson_eq (room : Nat) (name : Text) (entries : List Entry) (children : List Scope) :
    decode? (room + 2) (Scope.mk name entries children).toJson =
      (((entries.map Entry.toJson).mapM (Entry.decode? room)).bind fun entries =>
        ((toJsonAll children).mapM (decode? room)).map (.mk name entries ·)) := by
  have hslots : Json.slots? ["name", "bindings", "children"] (Scope.mk name entries children).toJson =
      some [some (.ofText name), some (.array (entries.map Entry.toJson)),
        some (.array (toJsonAll children))] := by
    have hnodup : ((members (.mk name entries children)).map (·.1)).Nodup := by
      show (["name", "bindings", "children"] : List Text).Nodup
      decide
    rw [toJson_eq_record]
    exact Json.slots?_record hnodup
  rw [decode?, decodeWith?, hslots]
  show ((entries.map Entry.toJson).mapM (Entry.decode? room)).bind _ = _
  cases (entries.map Entry.toJson).mapM (Entry.decode? room) with
  | none => rfl
  | some entries =>
    show ((toJsonAll children).mapM (decode? room)).bind _ =
      ((toJsonAll children).mapM (decode? room)).map _
    cases (toJsonAll children).mapM (decode? room) <;> rfl

/-- There is room for the lists of a scope, and inside them for what they hold. -/
theorem depth_toJson_le {name : Text} {entries : List Entry} {children : List Scope} {room : Nat}
    (h : (Scope.mk name entries children).toJson.depth ≤ room) :
    ∃ inner, room = inner + 2 ∧ (∀ j ∈ entries.map Entry.toJson, j.depth ≤ inner) ∧
      ∀ j ∈ toJsonAll children, j.depth ≤ inner := by
  rw [toJson_eq_record] at h
  obtain ⟨room, rfl, hdepth⟩ := Json.exists_room_of_record h
  obtain ⟨inner, rfl, hentries⟩ := Json.exists_room_of_array (hdepth _ (.tail _ (.head _)))
  obtain ⟨_, hinner, hchildren⟩ := Json.exists_room_of_array (hdepth _ (.tail _ (.tail _ (.head _))))
  obtain rfl := Nat.succ.inj hinner
  exact ⟨inner, rfl, hentries, hchildren⟩

mutual

/-- A tree of scopes can be read back if there is room for it, unless one of its cells holds an integer. -/
theorem decode?_toJson : ∀ {s : Scope}, (∀ v ∈ s.values, ¬ v.IsFloat) → ∀ {room : Nat},
    s.toJson.depth ≤ room →
    decode? room s.toJson = if s.values.all Value.isReadable then some s else none
  | .mk name entries children, hfloat, room, hroom => by
    rw [values, List.forall_mem_append] at hfloat
    obtain ⟨inner, rfl, hentries, hchildren⟩ := depth_toJson_le hroom
    have hlist : (entries.map Entry.toJson).mapM (Entry.decode? inner) =
        if entries.all (·.cell.value.isReadable) then some entries else none :=
      Json.mapM_map_eq fun e he =>
        Entry.decode?_toJson (hfloat.1 _ (List.mem_map_of_mem he)) (hentries _ (List.mem_map_of_mem he))
    rw [decode?_toJson_eq, hlist, mapM_toJsonAll hfloat.2 hchildren, values, List.all_append, List.all_map]
    show _ = if (entries.all (·.cell.value.isReadable) &&
      (valuesInside children).all Value.isReadable) then _ else _
    cases entries.all (·.cell.value.isReadable) <;>
      cases (valuesInside children).all Value.isReadable <;> rfl

private theorem mapM_toJsonAll : ∀ {ss : List Scope}, (∀ v ∈ valuesInside ss, ¬ v.IsFloat) → ∀ {room : Nat},
    (∀ j ∈ toJsonAll ss, j.depth ≤ room) →
    (toJsonAll ss).mapM (decode? room) = if (valuesInside ss).all Value.isReadable then some ss else none
  | [], _, _, _ => by
    rw [toJsonAll, valuesInside]
    rfl
  | s :: rest, hfloat, room, hroom => by
    rw [valuesInside, List.forall_mem_append] at hfloat
    rw [toJsonAll, List.forall_mem_cons] at hroom
    rw [toJsonAll, List.mapM_cons, decode?_toJson hfloat.1 hroom.1, mapM_toJsonAll hfloat.2 hroom.2,
      valuesInside, List.all_append]
    cases s.values.all Value.isReadable <;> cases (valuesInside rest).all Value.isReadable <;> rfl

end

mutual

theorem canonical_toJson : ∀ {s : Scope}, (∀ v ∈ s.values, ¬ v.IsFloat) → s.toJson.Canonical
  | .mk name entries children, hfloat => by
    rw [values, List.forall_mem_append] at hfloat
    rw [toJson]
    refine Json.canonical_record ?_
    simp only [List.forall_mem_cons]
    refine ⟨Json.canonical_ofText name, Json.canonical_array fun j hj => ?_,
      Json.canonical_array (canonical_toJsonAll hfloat.2), fun _ hm => by cases hm⟩
    obtain ⟨e, he, rfl⟩ := List.mem_map.mp hj
    exact Entry.canonical_toJson (hfloat.1 _ (List.mem_map_of_mem he))

private theorem canonical_toJsonAll : ∀ {ss : List Scope}, (∀ v ∈ valuesInside ss, ¬ v.IsFloat) →
    ∀ j ∈ toJsonAll ss, j.Canonical
  | [], _ => by
    rw [toJsonAll]
    exact List.forall_mem_nil _
  | s :: rest, hfloat => by
    rw [valuesInside, List.forall_mem_append] at hfloat
    rw [toJsonAll, List.forall_mem_cons]
    exact ⟨canonical_toJson hfloat.1, canonical_toJsonAll hfloat.2⟩

end

theorem decodeText?_eq {s : Scope} (hfloat : ∀ v ∈ s.values, ¬ v.IsFloat)
    (hdepth : s.toJson.depth ≤ Json.maxDepth) :
    Json.decodeText? decode? s.toJson.render = if s.values.all Value.isReadable then some s else none := by
  rw [Json.decodeText?, Json.parse?_render (canonical_toJson hfloat)]
  exact decode?_toJson hfloat hdepth

theorem all_isReadable_iff (vs : List Value) :
    vs.all Value.isReadable = true ↔ ∀ v ∈ vs, v.kind ≠ .int := by
  simp [Value.isReadable]

/-- **A tree of scopes survives being written, unless it holds an integer.**  If the tree has no
floating-point numbers and its text is not nested too deeply, the text is read back as the same tree exactly
if no cell in it holds an integer, and it is refused exactly if one does. -/
theorem decodeText?_render_toJson (s : Scope) (hfloat : ∀ v ∈ s.values, ¬ v.IsFloat)
    (hdepth : s.toJson.depth ≤ Json.maxDepth) :
    (Json.decodeText? decode? s.toJson.render = some s ↔ ∀ v ∈ s.values, v.kind ≠ .int) ∧
      (Json.decodeText? decode? s.toJson.render = none ↔ ∃ v ∈ s.values, v.kind = .int) := by
  have hiff := all_isReadable_iff s.values
  rw [decodeText?_eq hfloat hdepth]
  cases hall : s.values.all Value.isReadable with
  | true =>
    have hnone := hiff.mp hall
    refine ⟨iff_of_true rfl hnone, iff_of_false (Option.some_ne_none s) fun h => ?_⟩
    obtain ⟨v, hv, hint⟩ := h
    exact hnone v hv hint
  | false =>
    have hsome : ¬ ∀ v ∈ s.values, v.kind ≠ .int := fun h =>
      Bool.false_ne_true (hall.symm.trans (hiff.mpr h))
    refine ⟨iff_of_false (Option.some_ne_none s).symm hsome, iff_of_true rfl ?_⟩
    simpa using hsome

/-- A tree with every kind of cell, and with every kind of value but integers and floating-point
numbers. -/
def sampler : Scope :=
  .mk "Main" [
    ⟨"flag", 8, ⟨.ref, .bool true⟩, false⟩,
    ⟨"home", 18446744073709551615, ⟨.constant, .pointer 4096⟩, true⟩,
    ⟨"pair", 16, ⟨.variable, .bytes "Pair" [0, 255]⟩, false⟩] [
    .mk "Inner" [
      ⟨"a \"b\"\n\\", 0, ⟨.ref, .string "\t\x01é"⟩, false⟩,
      ⟨"f", 24, ⟨.constant, .function "f"⟩, false⟩,
      ⟨"T", 32, ⟨.constant, .type "T"⟩, false⟩] [
      .mk "" [⟨"o", 40, ⟨.variable, .object "Any"⟩, false⟩] []],
    .mk "Empty" [] []]

/-- The sampler is read back. -/
theorem decodeText?_render_toJson_sampler : (∀ v ∈ sampler.values, ¬ v.IsFloat) ∧
    sampler.toJson.depth ≤ Json.maxDepth ∧
      Json.decodeText? decode? sampler.toJson.render = some sampler := by
  have hfloat : ∀ v ∈ sampler.values, ¬ v.IsFloat := by decide
  have hdepth : sampler.toJson.depth ≤ Json.maxDepth := by decide
  have hint : ∀ v ∈ sampler.values, v.kind ≠ .int := by decide
  exact ⟨hfloat, hdepth, (decodeText?_render_toJson sampler hfloat hdepth).1.mpr hint⟩

/-- A tree with one cell, which holds an integer. -/
def counter : Scope :=
  .mk "Main" [⟨"x", 256, ⟨.ref, .int 64 7⟩, false⟩] []

/-- One integer is enough for a tree not to be read back. -/
theorem decodeText?_render_counter : (∀ v ∈ counter.values, ¬ v.IsFloat) ∧
    counter.toJson.depth ≤ Json.maxDepth ∧ Json.decodeText? decode? counter.toJson.render = none := by
  have hfloat : ∀ v ∈ counter.values, ¬ v.IsFloat := by decide
  have hdepth : counter.toJson.depth ≤ Json.maxDepth := by decide
  refine ⟨hfloat, hdepth, ?_⟩
  rw [decodeText?_eq hfloat hdepth]
  rfl

end Scope

end Freestanding
