import Freestanding.Json.Decoder
import Freestanding.Proofs.Json.Reading
import Freestanding.Proofs.Value.ByteArrays

/-!
# Decoding records

A record is an object whose members have different names.  A decoder asks for members by name and gets
each of them back, and it goes one level deeper for every array and every object.  So a document can be
decoded as far as the room suffices, and how much room it needs is its depth.

## Main definitions

* `Json.depth` — the greatest number of arrays and objects of a document inside one another.

## Main results

* `Json.canonical_ofText`, `Json.canonical_ofNat`, `Json.canonical_record` — simple documents and records
  can be read again.
* `Json.exists_room_of_array`, `Json.exists_room_of_record` — the room that a document needs.
* `Json.mapM_member?` — the members of a record, asked for by their names.
* `Json.isRepresentable_record`, `Json.isRepresentable_array` — documents taken in whole.
* `Json.mapM_eq_some_iff`, `Json.mapM_map_eq` — a list is decoded if each of its items is.
-/

namespace Freestanding.Json

/-! ### Simple documents -/

theorem canonical_ofText (t : Text) : (ofText t).Canonical := by
  rw [ofText, Canonical]
  exact ⟨t, rfl⟩

theorem digits_decimal (n : Nat) : Digits (Text.decimal n) :=
  ⟨Nat.toDigits_ne_nil, fun _ hc => Nat.isDigit_of_mem_toDigits (by decide) (by decide) hc⟩

/-- Only zero starts with a zero. -/
theorem head_decimal {n : Nat} (hn : n ≠ 0) : (Text.decimal n).head? ≠ some '0' := by
  induction n using Nat.strongRecOn with
  | _ n ih =>
    rw [Text.decimal]
    rcases Nat.lt_or_ge n 10 with h | h
    · have hall : ∀ d < 10, d ≠ 0 → (Nat.toDigits 10 d).head? ≠ some '0' := by decide
      exact hall n h hn
    · rw [Nat.toDigits_of_base_le (by decide) h, List.head?_append]
      have hne : Nat.toDigits 10 (n / 10) ≠ [] := Nat.toDigits_ne_nil
      obtain ⟨c, t, hhead⟩ := List.exists_cons_of_ne_nil hne
      have hquotient := ih (n / 10) (by omega) (by omega)
      rw [Text.decimal, hhead] at hquotient
      rw [hhead]
      exact hquotient

theorem Numeral.canonical_decimal (negative : Bool) (n : Nat) :
    Numeral.Canonical { negative, whole := Text.decimal n } where
  whole := by
    rcases Nat.eq_zero_or_pos n with h | h
    · exact .inl (by rw [h]; rfl)
    · exact .inr ⟨digits_decimal n, head_decimal (by omega)⟩
  fraction _ h := by cases h
  exponent _ _ h := by cases h

theorem canonical_ofNat (n : Nat) : (ofNat n).Canonical := by
  rw [ofNat, Canonical]
  exact Numeral.canonical_decimal false n

theorem canonical_ofInt (i : Int) : (ofInt i).Canonical := by
  cases i with
  | ofNat n => exact canonical_ofNat n
  | negSucc n =>
    rw [ofInt, Canonical]
    exact Numeral.canonical_decimal true (n + 1)

theorem canonical_array {items : List Json} (h : ∀ j ∈ items, j.Canonical) : (array items).Canonical := by
  rw [Canonical]
  induction items with
  | nil => trivial
  | cons j items ih =>
    exact ⟨h j List.mem_cons_self, ih fun k hk => h k (List.mem_cons_of_mem j hk)⟩

theorem canonical_record {members : List (Text × Json)} (h : ∀ m ∈ members, m.2.Canonical) :
    (record members).Canonical := by
  rw [record, Canonical]
  induction members with
  | nil => trivial
  | cons m members ih =>
    exact ⟨⟨m.1, rfl⟩, h m List.mem_cons_self, ih fun k hk => h k (List.mem_cons_of_mem m hk)⟩

theorem magnitude_decimal (n : Nat) : Numeral.magnitude { whole := Text.decimal n } = n :=
  Nat.ofDigitChars_ten_toDigits

theorem toWord?_ofNat {n : Nat} (hn : n < UInt64.size) :
    Numeral.toWord? { whole := Text.decimal n } = some n.toUInt64 := by
  rw [Numeral.toWord?, magnitude_decimal, if_pos ⟨rfl, by simp, hn⟩]

theorem toWord?_toNat (w : UInt64) : Numeral.toWord? { whole := Text.decimal w.toNat } = some w := by
  rw [toWord?_ofNat w.toNat_lt]
  exact congrArg some (UInt64.ofNat_toNat)

/-! ### Room -/

mutual

/-- The greatest number of arrays and objects inside one another. -/
def depth : Json → Nat
  | .null => 0
  | .bool _ => 0
  | .number _ => 0
  | .string _ => 0
  | .array items => depthOfItems items + 1
  | .object members => depthOfMembers members + 1

/-- The greatest depth of the items of an array. -/
def depthOfItems : List Json → Nat
  | [] => 0
  | j :: rest => max j.depth (depthOfItems rest)

/-- The greatest depth of the members of an object. -/
def depthOfMembers : List (Literal × Json) → Nat
  | [] => 0
  | (_, j) :: rest => max j.depth (depthOfMembers rest)

end

theorem depthOfItems_le_iff {items : List Json} {room : Nat} :
    depthOfItems items ≤ room ↔ ∀ j ∈ items, j.depth ≤ room := by
  induction items with
  | nil => simp [depthOfItems]
  | cons j items ih => simp [depthOfItems, ih]

theorem depthOfMembers_le_iff {members : List (Text × Json)} {room : Nat} :
    depthOfMembers (members.map fun m => (Literal.ofText m.1, m.2)) ≤ room ↔
      ∀ m ∈ members, m.2.depth ≤ room := by
  induction members with
  | nil => simp [depthOfMembers]
  | cons m members ih => simp only [List.map_cons, depthOfMembers, Nat.max_le, ih, List.forall_mem_cons]

/-- An array takes one level, and what is in it must fit in the levels that are left. -/
theorem exists_room_of_array {items : List Json} {room : Nat} (h : (array items).depth ≤ room) :
    ∃ inner, room = inner + 1 ∧ ∀ j ∈ items, j.depth ≤ inner := by
  rw [depth] at h
  obtain ⟨inner, rfl⟩ := Nat.exists_eq_add_of_le' (Nat.le_trans (Nat.le_add_left 1 _) h)
  exact ⟨inner, rfl, depthOfItems_le_iff.mp (Nat.le_of_succ_le_succ h)⟩

/-- A record takes one level, and what is in it must fit in the levels that are left. -/
theorem exists_room_of_record {members : List (Text × Json)} {room : Nat}
    (h : (record members).depth ≤ room) :
    ∃ inner, room = inner + 1 ∧ ∀ m ∈ members, m.2.depth ≤ inner := by
  rw [record, depth] at h
  obtain ⟨inner, rfl⟩ := Nat.exists_eq_add_of_le' (Nat.le_trans (Nat.le_add_left 1 _) h)
  exact ⟨inner, rfl, depthOfMembers_le_iff.mp (Nat.le_of_succ_le_succ h)⟩

theorem isRepresentable_array (room : Nat) (items : List Json) :
    isRepresentable (room + 1) (array items) = items.all (isRepresentable room) := by
  rw [isRepresentable]
  induction items with
  | nil => rfl
  | cons j items ih => rw [areItemsRepresentable, ih, List.all_cons]

theorem isRepresentable_record (room : Nat) (members : List (Text × Json)) :
    isRepresentable (room + 1) (record members) = members.all fun m => isRepresentable room m.2 := by
  rw [record, isRepresentable]
  induction members with
  | nil => rfl
  | cons m members ih =>
    rw [List.map_cons, areMembersRepresentable, ih, List.all_cons]
    rfl

theorem isRepresentable_ofText (room : Nat) (t : Text) : isRepresentable room (ofText t) = true := by
  rw [ofText, isRepresentable]
  rfl

theorem isRepresentable_ofNat (room : Nat) {n : Nat} (hn : n < UInt64.size) :
    isRepresentable room (ofNat n) = true := by
  rw [ofNat, isRepresentable, Numeral.scalar?]
  simp only [magnitude_decimal]
  rw [if_pos ⟨rfl, by simp, hn⟩]
  rfl

/-! ### Members -/

theorem named?_record (members : List (Text × Json)) :
    named? (members.map fun m => (Literal.ofText m.1, m.2)) = some members := by
  induction members with
  | nil => rfl
  | cons m members ih =>
    rw [named?] at ih
    rw [named?, List.map_cons, List.mapM_cons, ih]
    rfl

theorem member?_of_mem {members : List (Text × Json)} (hnodup : (members.map (·.1)).Nodup)
    {m : Text × Json} (hm : m ∈ members) : member? members m.1 = some (some m.2) := by
  have hfilter : members.filter (·.1 == m.1) = [m] := by
    induction members with
    | nil => cases hm
    | cons k members ih =>
      rw [List.map_cons, List.nodup_cons] at hnodup
      rcases List.mem_cons.mp hm with rfl | hm
      · have hnone : members.filter (·.1 == m.1) = [] := by
          refine List.filter_eq_nil_iff.mpr fun k hk heq => hnodup.1 ?_
          rw [← beq_iff_eq.mp heq]
          exact List.mem_map_of_mem hk
        rw [List.filter_cons_of_pos (by simp), hnone]
      · have hne : k.1 ≠ m.1 := by
          intro heq
          exact hnodup.1 (heq ▸ List.mem_map_of_mem hm)
        rw [List.filter_cons_of_neg (by simpa using hne), ih hnodup.2 hm]
  rw [member?, hfilter]

theorem mapM_member? {members fields : List (Text × Json)} (hnodup : (members.map (·.1)).Nodup)
    (hsub : fields ⊆ members) :
    (fields.map (·.1)).mapM (member? members) = some ((fields.map (·.2)).map some) := by
  induction fields with
  | nil => rfl
  | cons m fields ih =>
    rw [List.cons_subset] at hsub
    rw [List.map_cons, List.mapM_cons, member?_of_mem hnodup hsub.1, ih hsub.2]
    rfl

theorem slots?_record {members : List (Text × Json)} (hnodup : (members.map (·.1)).Nodup) :
    slots? (members.map (·.1)) (record members) = some ((members.map (·.2)).map some) := by
  rw [record, slots?, named?_record]
  exact mapM_member? hnodup fun _ => id

/-! ### Lists -/

/-- A list is decoded if each of its items is, to the list of their values. -/
theorem mapM_eq_some_iff {α β : Type} {f : α → Option β} {xs : List α} {ys : List β} :
    xs.mapM f = some ys ↔ List.Forall₂ (fun x y => f x = some y) xs ys := by
  induction xs generalizing ys with
  | nil => simp [eq_comm]
  | cons x xs ih =>
    rw [List.mapM_cons, List.forall₂_cons_left_iff]
    constructor
    · intro h
      obtain ⟨y, hy, h⟩ := Option.bind_eq_some_iff.mp h
      obtain ⟨rest, hrest, h⟩ := Option.bind_eq_some_iff.mp h
      exact ⟨y, rest, hy, ih.mp hrest, (Option.some.inj h).symm⟩
    · rintro ⟨y, rest, hy, hrest, rfl⟩
      rw [hy, ih.mpr hrest]
      rfl

/-- A list is decoded if each of its items is, and it is refused if one of them is refused. -/
theorem mapM_map_eq {α : Type} {decode? : Json → Option α} {encode : α → Json} {accepts : α → Bool}
    {l : List α} (h : ∀ a ∈ l, decode? (encode a) = if accepts a then some a else none) :
    (l.map encode).mapM decode? = if l.all accepts then some l else none := by
  induction l with
  | nil => rfl
  | cons a l ih =>
    have htail := ih fun b hb => h b (List.mem_cons_of_mem a hb)
    rw [List.map_cons, List.mapM_cons, h a List.mem_cons_self, htail, List.all_cons]
    cases accepts a <;> cases l.all accepts <;> rfl

end Freestanding.Json
