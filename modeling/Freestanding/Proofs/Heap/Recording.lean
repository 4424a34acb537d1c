import Freestanding.Proofs.Heap.Bytes
import Freestanding.Proofs.Text.Utf8
import Mathlib.Data.UInt

/-!
# Recorded objects can be read again

A host records its objects in an image one after the other: type descriptors, container types, strings
and boxed values.  If no two of them write the same byte, their order does not matter, and each object
can be read back from the finished image, whatever else was recorded and whatever the image held before.

Reading chases words: from a value to its tag, from there to the descriptor of its type, and on to its
layout.  All of these words were written by some recording, and the bytes of a recording are found in the
finished image.

## Main definitions

* `HeapImage.Recording` — an object to be recorded.
* `HeapImage.Recording.writes` — the bytes that recording it writes, with their addresses.
* `HeapImage.Recording.Fits` — its address is a multiple of eight, and memory does not end in it.
* `HeapImage.Recordable` — objects that fit, with no byte in common.

## Main results

* `HeapImage.record_eq_writeAll` — recording an object is writing its bytes.
* `HeapImage.Recordable.byte?` — every byte of a recording is found in the finished image.
* `HeapImage.recorded_reads_back` — **recorded objects read back, in whatever order they were
  recorded.**
-/

namespace Freestanding.HeapImage

open Address

/-! ### Recordings -/

/-- An object of the host to be recorded at an address. -/
inductive Recording
  /-- A type descriptor. -/
  | datatype (address size flags : UInt64)
  /-- A container type with its element type. -/
  | containerType (address elementType : UInt64)
  /-- A string. -/
  | string (address : UInt64) (content : Text)
  /-- A value with its type. -/
  | boxed (address type : UInt64) (content : List UInt8)
  deriving DecidableEq

/-- Record an object. -/
def record (h : HeapImage) : Recording → HeapImage
  | .datatype a size flags => h.defineDatatype a size flags
  | .containerType a elementType => h.defineContainerType a elementType
  | .string a content => h.defineString a content
  | .boxed a type content => h.defineBoxed a type content

/-- Record objects, one after the other. -/
def recordAll (h : HeapImage) (rs : List Recording) : HeapImage :=
  rs.foldl record h

namespace Recording

/-- The words that recording an object writes. -/
def wordWrites : Recording → List (UInt64 × UInt64)
  | .datatype a size flags => [(a + 40, a + 0x100), (a + 48, flags), (a + 0x100, size)]
  | .containerType a elementType => [(a + 16, a + 0x80), (a + 0x80, 3), (a + 0x80 + 16, elementType)]
  | .string a content => [(a - 8, stringTag), (a, content.encode.length.toUInt64)]
  | .boxed a type _ => [(a - 8, type)]

/-- The addresses of these words, as numbers. -/
def wordPlaces : Recording → List Nat
  | .datatype a _ _ => [a.toNat + 40, a.toNat + 48, a.toNat + 0x100]
  | .containerType a _ => [a.toNat + 16, a.toNat + 0x80, a.toNat + 0x80 + 16]
  | .string a _ => [a.toNat - 8, a.toNat]
  | .boxed a _ _ => [a.toNat - 8]

/-- The other bytes that it writes, and where they start. -/
def content : Recording → UInt64 × List UInt8
  | .datatype a _ _ => (a, [])
  | .containerType a _ => (a, [])
  | .string a content => (a + 8, content.encode)
  | .boxed a _ content => (a, content)

/-- The bytes that recording an object writes, with their addresses. -/
def writes (r : Recording) : List (UInt64 × UInt8) :=
  r.wordWrites.flatMap (fun w => writesAt w.1 (wordBytes w.2)) ++ writesAt r.content.1 r.content.2

/-- The addresses that recording an object writes. -/
def footprint (r : Recording) : List UInt64 :=
  r.writes.map Prod.fst

/-- The address of the object is a multiple of eight, and no address that is computed from it lies outside
of memory. -/
def Fits : Recording → Prop
  | .datatype a _ _ => a.toNat % 8 = 0 ∧ a.toNat + 0x100 < UInt64.size
  | .containerType a _ => a.toNat % 8 = 0 ∧ a.toNat + 0x80 + 16 < UInt64.size
  | .string a content => a.toNat % 8 = 0 ∧ 8 ≤ a.toNat ∧ a.toNat + 8 < UInt64.size ∧
    a.toNat + 8 + content.encode.length ≤ UInt64.size
  | .boxed a _ content => a.toNat % 8 = 0 ∧ 8 ≤ a.toNat ∧ a.toNat + content.length ≤ UInt64.size

instance (r : Recording) : Decidable r.Fits := by
  cases r <;> exact inferInstanceAs (Decidable (_ ∧ _))

theorem toNat_sub_eight {a : UInt64} (h : 8 ≤ a.toNat) : (a - 8).toNat = a.toNat - 8 :=
  UInt64.toNat_sub_of_le a 8 (UInt64.le_iff_toNat_le.mpr h)

end Recording

open Recording

/-- Recording an object is writing its words and its content. -/
theorem record_eq (h : HeapImage) (r : Recording) :
    h.record r = (r.wordWrites.foldl (fun h w => h.writeWord w.1 w.2) h).writeBytes r.content.1 r.content.2 := by
  cases r <;> rfl

/-- No address of a word of a recording lies outside of memory. -/
theorem Recording.Fits.map_wordWrites {r : Recording} (hr : r.Fits) :
    r.wordWrites.map (fun w => w.1.toNat) = r.wordPlaces := by
  cases r with
  | datatype a size flags =>
    obtain ⟨-, hfits⟩ := hr
    have h40 : (a + 40).toNat = a.toNat + 40 := toNat_add (n := 40) (by omega)
    have h48 : (a + 48).toNat = a.toNat + 48 := toNat_add (n := 48) (by omega)
    have h256 : (a + 0x100).toNat = a.toNat + 0x100 := toNat_add (n := 0x100) hfits
    simp only [wordWrites, wordPlaces, List.map_cons, List.map_nil, h40, h48, h256]
  | containerType a elementType =>
    obtain ⟨-, hfits⟩ := hr
    have h16 : (a + 16).toNat = a.toNat + 16 := toNat_add (n := 16) (by omega)
    have h128 : (a + 0x80).toNat = a.toNat + 0x80 := toNat_add (n := 0x80) (by omega)
    have h144 : (a + 0x80 + 16).toNat = (a + 0x80).toNat + 16 := toNat_add (n := 16) (by omega)
    simp only [wordWrites, wordPlaces, List.map_cons, List.map_nil, h16, h128, h144]
  | string a content =>
    simp only [wordWrites, wordPlaces, List.map_cons, List.map_nil, toNat_sub_eight hr.2.1]
  | boxed a type content =>
    simp only [wordWrites, wordPlaces, List.map_cons, List.map_nil, toNat_sub_eight hr.2.1]

theorem Recording.Fits.mem_wordPlaces {r : Recording} (hr : r.Fits) {w : UInt64 × UInt64}
    (hw : w ∈ r.wordWrites) : w.1.toNat ∈ r.wordPlaces := by
  rw [← hr.map_wordWrites]
  exact List.mem_map_of_mem hw

/-- All words of a recording are at multiples of eight. -/
theorem Recording.Fits.wordWrites_aligned {r : Recording} (hr : r.Fits) :
    ∀ w ∈ r.wordWrites, w.1.toNat % 8 = 0 := by
  intro w hw
  have hplace := hr.mem_wordPlaces hw
  -- every kind of object has its words at multiples of eight from its address
  cases r
  all_goals
    have ha := hr.1
    simp only [wordPlaces, List.mem_cons, List.not_mem_nil, or_false] at hplace
    omega

private theorem foldl_writeWord_eq_writeAll (h : HeapImage) {ws : List (UInt64 × UInt64)}
    (haligned : ∀ w ∈ ws, w.1.toNat % 8 = 0) :
    ws.foldl (fun h w => h.writeWord w.1 w.2) h =
      h.writeAll (ws.flatMap fun w => writesAt w.1 (wordBytes w.2)) := by
  induction ws generalizing h with
  | nil => rfl
  | cons w ws ih =>
    rw [List.forall_mem_cons] at haligned
    rw [List.foldl_cons, ih _ haligned.2, writeWord_eq_writeAll h haligned.1, List.flatMap_cons,
      writeAll_append]

/-- **Recording an object is writing its bytes.** -/
theorem record_eq_writeAll (h : HeapImage) {r : Recording} (hr : r.Fits) :
    h.record r = h.writeAll r.writes := by
  rw [record_eq, foldl_writeWord_eq_writeAll h hr.wordWrites_aligned, writeBytes_eq_writeAll, writes,
    writeAll_append]

theorem recordAll_eq_writeAll (h : HeapImage) {rs : List Recording} (hrs : ∀ r ∈ rs, r.Fits) :
    h.recordAll rs = h.writeAll (rs.flatMap writes) := by
  induction rs generalizing h with
  | nil => rfl
  | cons r rs ih =>
    rw [List.forall_mem_cons] at hrs
    rw [List.flatMap_cons, writeAll_append, ← record_eq_writeAll h hrs.1]
    exact ih (h.record r) hrs.2

/-- The content of an object fits into memory. -/
theorem Recording.Fits.content_le {r : Recording} (hr : r.Fits) :
    r.content.1.toNat + r.content.2.length ≤ UInt64.size := by
  cases r with
  | datatype a size flags => exact Nat.le_of_lt a.toNat_lt
  | containerType a elementType => exact Nat.le_of_lt a.toNat_lt
  | string a content =>
    obtain ⟨-, -, hlt, hle⟩ := hr
    have h8 : (a + 8).toNat = a.toNat + 8 := toNat_add (n := 8) hlt
    change (a + 8).toNat + _ ≤ _
    rw [h8]
    exact hle
  | boxed a type content => exact hr.2.2

/-- The words of an object are different ones. -/
theorem Recording.Fits.nodup_wordWrites {r : Recording} (hr : r.Fits) : (r.wordWrites.map Prod.fst).Nodup := by
  have hplaces : r.wordPlaces.Nodup := by
    cases r with
    | datatype a size flags => simp [wordPlaces]
    | containerType a elementType => simp [wordPlaces]
    | string a content =>
      have hlow := hr.2.1
      simp only [wordPlaces, List.nodup_cons, List.mem_singleton, List.not_mem_nil, not_false_eq_true,
        List.nodup_nil, and_true]
      omega
    | boxed a type content => simp [wordPlaces]
  refine List.Nodup.of_map UInt64.toNat ?_
  rw [List.map_map]
  exact hr.map_wordWrites ▸ hplaces

/-- Its content lies in none of them. -/
theorem Recording.Fits.content_apart {r : Recording} (hr : r.Fits) {w : UInt64 × UInt64} (hw : w ∈ r.wordWrites)
    {x : UInt64} (hx : aligned x = w.1) :
    ¬ (r.content.1.toNat ≤ x.toNat ∧ x.toNat < r.content.1.toNat + r.content.2.length) := by
  intro hin
  have hplace := hr.mem_wordPlaces hw
  have hword := toNat_aligned x
  rw [hx] at hword
  cases r with
  | datatype a size flags =>
    simp only [content, List.length_nil] at hin
    omega
  | containerType a elementType =>
    simp only [content, List.length_nil] at hin
    omega
  | string a text =>
    obtain ⟨ha, hlow, hlt, -⟩ := hr
    have h8 : (a + 8).toNat = a.toNat + 8 := toNat_add (n := 8) hlt
    simp only [content, h8] at hin
    simp only [wordPlaces, List.mem_cons, List.not_mem_nil, or_false] at hplace
    omega
  | boxed a type bytes =>
    obtain ⟨ha, hlow, -⟩ := hr
    simp only [content] at hin
    simp only [wordPlaces, List.mem_singleton] at hplace
    omega

/-- Words at different multiples of eight have no byte in common. -/
theorem nodup_flatMap_writesAt {ws : List (UInt64 × UInt64)} (haligned : ∀ w ∈ ws, w.1.toNat % 8 = 0)
    (hnodup : (ws.map Prod.fst).Nodup) :
    ((ws.flatMap fun w => writesAt w.1 (wordBytes w.2)).map Prod.fst).Nodup := by
  rw [List.map_flatMap, List.nodup_flatMap]
  constructor
  · intro w hw
    apply nodup_writesAt
    have := haligned w hw
    have := w.1.toNat_lt
    change w.1.toNat + 8 ≤ 2 ^ 64
    omega
  · refine (List.pairwise_map.mp hnodup).imp_of_mem ?_
    intro w w' hw hw' hne x hx hx'
    obtain ⟨⟨x, b⟩, hmem, rfl⟩ := List.mem_map.mp hx
    obtain ⟨⟨x', b'⟩, hmem', he⟩ := List.mem_map.mp hx'
    obtain rfl : x' = x := he
    have h := ((mem_writesAt_wordBytes (haligned w hw) w.2).mp hmem).1
    have h' := ((mem_writesAt_wordBytes (haligned w' hw') w'.2).mp hmem').1
    exact hne (h.symm.trans h')

/-- Recording an object writes no byte twice. -/
theorem Recording.Fits.nodup_footprint {r : Recording} (hr : r.Fits) : r.footprint.Nodup := by
  rw [footprint, writes, List.map_append, List.nodup_append]
  refine ⟨nodup_flatMap_writesAt hr.wordWrites_aligned hr.nodup_wordWrites, nodup_writesAt hr.content_le, ?_⟩
  intro x hx x' hx' he
  subst he
  rw [mem_map_fst_writesAt hr.content_le] at hx'
  obtain ⟨⟨x, b⟩, hmem, rfl⟩ := List.mem_map.mp hx
  obtain ⟨w, hw, hmem⟩ := List.mem_flatMap.mp hmem
  exact hr.content_apart hw ((mem_writesAt_wordBytes (hr.wordWrites_aligned w hw) w.2).mp hmem).1 hx'

/-! ### The finished image -/

/-- Objects that fit into memory, no two of which write the same byte. -/
structure Recordable (rs : List Recording) : Prop where
  /-- Each object fits. -/
  fits : ∀ r ∈ rs, r.Fits
  /-- No two objects have a byte in common. -/
  apart : rs.Pairwise fun r r' => r.footprint.Disjoint r'.footprint

section

variable {rs : List Recording}

theorem Recordable.nodup (hrs : Recordable rs) : ((rs.flatMap writes).map Prod.fst).Nodup := by
  rw [List.map_flatMap, List.nodup_flatMap]
  exact ⟨fun r hr => (hrs.fits r hr).nodup_footprint, hrs.apart⟩

variable (h : HeapImage)

/-- **Every byte of a recording is found in the finished image.** -/
theorem Recordable.byte? (hrs : Recordable rs) {r : Recording} (hr : r ∈ rs) {x : UInt64} {b : UInt8}
    (hb : (x, b) ∈ r.writes) : (h.recordAll rs).byte? x = some b := by
  rw [recordAll_eq_writeAll h hrs.fits]
  exact byte?_writeAll h hrs.nodup (List.mem_flatMap.mpr ⟨r, hr, hb⟩)

/-- So is every word. -/
theorem Recordable.readWord? (hrs : Recordable rs) {r : Recording} (hr : r ∈ rs) {a w : UInt64}
    (hw : (a, w) ∈ r.wordWrites) : (h.recordAll rs).readWord? a = some w := by
  have ha := (hrs.fits r hr).wordWrites_aligned (a, w) hw
  refine readWord?_of_byte? ha fun x hx => hrs.byte? h hr ?_
  exact List.mem_append_left _
    (List.mem_flatMap.mpr ⟨(a, w), hw, (mem_writesAt_wordBytes ha w).mpr ⟨hx, rfl⟩⟩)

/-- And so is the content. -/
theorem Recordable.readBytes? (hrs : Recordable rs) {r : Recording} (hr : r ∈ rs) :
    (h.recordAll rs).readBytes? r.content.1 r.content.2.length = some r.content.2 :=
  readBytes?_of_byte? (hrs.fits r hr).content_le fun _ _ hb =>
    hrs.byte? h hr (List.mem_append_right _ hb)

/-! ### Reading objects -/

private theorem and_tagMask {t : UInt64} (ht : t.toNat % 16 = 0) : t &&& tagMask = t := by
  apply UInt64.eq_of_toBitVec_eq
  apply BitVec.eq_of_getLsbD_eq
  intro i hi
  have hmask : tagMask.toBitVec = ~~~((BitVec.allOnes 4).setWidth 64) := by decide
  rw [UInt64.toBitVec_and, BitVec.getLsbD_and, hmask, BitVec.getLsbD_not, BitVec.getLsbD_setWidth,
    BitVec.getLsbD_allOnes]
  by_cases hlow : i < 4
  · -- the low bits of a multiple of sixteen are zero
    have hbit : t.toBitVec.getLsbD i = false := by
      have hmod : t.toNat.testBit i = (t.toNat % 2 ^ 4).testBit i := by
        rw [Nat.testBit_mod_two_pow]
        simp [hlow]
      rw [BitVec.getLsbD]
      change t.toNat.testBit i = false
      rw [hmod, show t.toNat % 2 ^ 4 = 0 from ht, Nat.zero_testBit]
    simp [hbit]
  · simp [hlow, hi]

theorem and_low_word (w : UInt64) : w &&& 0xFFFFFFFF = w % 0x100000000 := by
  apply UInt64.toNat_inj.mp
  rw [UInt64.toNat_and, UInt64.toNat_mod]
  exact Nat.and_two_pow_sub_one_eq_mod w.toNat 32

theorem back?_eq {a : UInt64} (ha : 8 ≤ a.toNat) : back? a 8 = some (a - 8) :=
  if_pos ha

/-- The size of a recorded type. -/
theorem Recordable.datatypeSize? (hrs : Recordable rs) {a size flags : UInt64}
    (hr : .datatype a size flags ∈ rs) :
    (h.recordAll rs).datatypeSize? a = some (size % 0x100000000) := by
  obtain ⟨-, hfits⟩ := hrs.fits _ hr
  have hlayout : (a + 0x100).toNat = a.toNat + 0x100 := toNat_add (n := 0x100) hfits
  have hne : a + 0x100 ≠ 0 := fun he => by
    rw [he] at hlayout
    exact absurd hlayout (by simp)
  have hoffset : offset? a layoutOffset = some (a + 40) := offset?_eq (by
    change a.toNat + 40 < _
    omega)
  have hword : (h.recordAll rs).readWord? (a + 40) = some (a + 0x100) :=
    hrs.readWord? h hr (by simp [wordWrites])
  have hsize : (h.recordAll rs).readWord? (a + 0x100) = some size :=
    hrs.readWord? h hr (by simp [wordWrites])
  simp only [HeapImage.datatypeSize?, hoffset, Option.bind_eq_bind, Option.bind_some, hword, if_neg hne,
    hsize, and_low_word]
  rfl

/-- A recorded string is read as a string. -/
theorem Recordable.reconstruct?_string (hrs : Recordable rs) {a : UInt64} {content : Text}
    (hr : .string a content ∈ rs) (hlen : content.encode.length ≤ maxObjectSize) :
    (h.recordAll rs).reconstruct? a = some (.string content) := by
  obtain ⟨-, hlow, hlt, hle⟩ := hrs.fits _ hr
  have htag : (h.recordAll rs).readWord? (a - 8) = some stringTag := hrs.readWord? h hr (by simp [wordWrites])
  have hlength : (h.recordAll rs).readWord? a = some content.encode.length.toUInt64 :=
    hrs.readWord? h hr (by simp [wordWrites])
  have hbytes : (h.recordAll rs).readBytes? (a + 8) content.encode.length = some content.encode :=
    hrs.readBytes? h hr
  have hnat : content.encode.length.toUInt64.toNat = content.encode.length := by
    simp only [Nat.toUInt64, UInt64.toNat_ofNat']
    simp only [maxObjectSize] at hlen
    omega
  have hmask : stringTag &&& tagMask = stringTag := by decide
  have hoffset : offset? a 8 = some (a + 8) := offset?_eq hlt
  simp only [HeapImage.reconstruct?, tag?, back?_eq hlow, Option.bind_eq_bind, Option.bind_some, htag,
    hmask, hlength, hnat, if_neg (Nat.not_lt.mpr hlen), hoffset, hbytes, pure, if_true,
    Text.decodeLossy_encode]

/-- A recorded value is read as bytes, if its type is recorded as well. -/
theorem Recordable.reconstruct?_boxed (hrs : Recordable rs) {a d size flags : UInt64}
    {content : List UInt8} (hr : .boxed a d content ∈ rs) (hd : .datatype d size flags ∈ rs)
    (hmod : d.toNat % 16 = 0) (hlimit : smallTagLimit < d)
    (hlen : content.length = (size % 0x100000000).toNat) (hpos : 1 ≤ content.length)
    (hmax : content.length ≤ maxObjectSize) :
    (h.recordAll rs).reconstruct? a = some (.bytes ("type@0x" ++ Text.hex d.toNat) content) := by
  obtain ⟨-, hlow, -⟩ := hrs.fits _ hr
  have htag : (h.recordAll rs).readWord? (a - 8) = some d := hrs.readWord? h hr (by simp [wordWrites])
  have hbytes : (h.recordAll rs).readBytes? a content.length = some content := hrs.readBytes? h hr
  have hstring : d ≠ stringTag := fun he => absurd (he ▸ hlimit) (by decide)
  have hsize : ¬ (size % 0x100000000 = 0 ∨ maxObjectSize < content.length) := by
    rintro (hzero | hgreat)
    · have hnone : content.length = 0 := by rw [hlen, hzero]; rfl
      omega
    · omega
  simp only [HeapImage.reconstruct?, tag?, back?_eq hlow, Option.bind_eq_bind, Option.bind_some, htag,
    and_tagMask hmod, if_neg hstring, pure, if_pos hlimit, hrs.datatypeSize? h hd, ← hlen, if_neg hsize,
    hbytes]

/-- A recorded container type has the layout that its recorded element type gives it. -/
theorem Recordable.layout? (hrs : Recordable rs) {a elementType size flags : UInt64}
    (hr : .containerType a elementType ∈ rs) (he : .datatype elementType size flags ∈ rs) :
    (h.recordAll rs).layout? a = some
      (if flags &&& 3 ≠ 0 then .byReference else .inPlace (size % 0x100000000)) := by
  obtain ⟨-, hfits⟩ := hrs.fits _ hr
  obtain ⟨-, hfits'⟩ := hrs.fits _ he
  have hparameters : (h.recordAll rs).readWord? (a + 16) = some (a + 0x80) :=
    hrs.readWord? h hr (by simp [wordWrites])
  have helement : (h.recordAll rs).readWord? (a + 0x80 + 16) = some elementType :=
    hrs.readWord? h hr (by simp [wordWrites])
  have hflags : (h.recordAll rs).readWord? (elementType + 48) = some flags :=
    hrs.readWord? h he (by simp [wordWrites])
  have h128 : (a + 0x80).toNat = a.toNat + 0x80 := toNat_add (n := 0x80) (by omega)
  have hoffset₁ : offset? a parametersOffset = some (a + 16) := offset?_eq (by
    change a.toNat + 16 < _
    omega)
  have hoffset₂ : offset? (a + 0x80) elementTypeOffset = some (a + 0x80 + 16) := offset?_eq (by
    change (a + 0x80).toNat + 16 < _
    omega)
  have hoffset₃ : offset? elementType flagsOffset = some (elementType + 48) := offset?_eq (by
    change elementType.toNat + 48 < _
    omega)
  simp only [HeapImage.layout?, hoffset₁, hoffset₂, hoffset₃, Option.bind_eq_bind, Option.bind_some,
    hparameters, helement, hflags, pure, hrs.datatypeSize? h he]
  split
  · rfl
  · rfl

end

/-- The lowest two flags, one by one. -/
theorem flags_iff (flags : UInt64) : flags &&& 3 ≠ 0 ↔ flags &&& 1 ≠ 0 ∨ flags &&& 2 ≠ 0 := by
  have hlow : flags &&& 3 = flags &&& 1 ||| flags &&& 2 := by
    apply UInt64.eq_of_toBitVec_eq
    change flags.toBitVec &&& (1 ||| 2) = _
    rw [BitVec.and_or_distrib_left]
    rfl
  rw [hlow, ← not_and_or, not_iff_not]
  constructor
  · intro hzero
    exact UInt64.or_eq_zero_iff.mp hzero
  · rintro ⟨h₁, h₂⟩
    rw [h₁, h₂]
    rfl

/-- **Recorded objects read back, in whatever order they were recorded.**  Let objects be recorded in an
image at multiples of eight, within memory, and so that no two of them write the same byte.  Then the
image afterwards does not depend on their order.  In it a string of no more than a mebibyte is read as
that string.  A value whose type is recorded, at a multiple of sixteen beyond the small tags, and whose
bytes are as many as the low half of the size says, between one and a mebibyte, is read as these bytes.
And a container type whose element type is recorded has elements by reference if that is abstract or
mutable, and in place, with the low half of its size, otherwise. -/
theorem recorded_reads_back (h : HeapImage) {rs : List Recording} (hrs : Recordable rs) :
    (∀ rs', rs.Perm rs' → h.recordAll rs' = h.recordAll rs) ∧
    (∀ a content, .string a content ∈ rs → content.encode.length ≤ 2 ^ 20 →
      (h.recordAll rs).reconstruct? a = some (.string content)) ∧
    (∀ a d size flags content, .boxed a d content ∈ rs → .datatype d size flags ∈ rs →
      d.toNat % 16 = 0 → 1024 < d.toNat → content.length = size.toNat % 2 ^ 32 →
      1 ≤ content.length → content.length ≤ 2 ^ 20 →
      (h.recordAll rs).reconstruct? a = some (.bytes ("type@0x" ++ Text.hex d.toNat) content)) ∧
    (∀ a elementType size flags, .containerType a elementType ∈ rs →
      .datatype elementType size flags ∈ rs →
      (h.recordAll rs).layout? a = some (if flags &&& 1 ≠ 0 ∨ flags &&& 2 ≠ 0 then .byReference
        else .inPlace (size.toNat % 2 ^ 32).toUInt64)) := by
  have hsize : ∀ size : UInt64, (size % 0x100000000).toNat = size.toNat % 2 ^ 32 :=
    fun size => UInt64.toNat_mod size 0x100000000
  refine ⟨?_, ?_, ?_, ?_⟩
  · intro rs' hperm
    rw [recordAll_eq_writeAll h hrs.fits,
      recordAll_eq_writeAll h fun r hr => hrs.fits r (hperm.mem_iff.mpr hr)]
    exact (writeAll_perm h hrs.nodup (hperm.flatMap_right writes)).symm
  · intro a content hr hlen
    exact hrs.reconstruct?_string h hr hlen
  · intro a d size flags content hr hd hmod hlimit hlen hpos hmax
    exact hrs.reconstruct?_boxed h hr hd hmod (UInt64.lt_iff_toNat_lt.mpr hlimit)
      (hlen.trans (hsize size).symm) hpos hmax
  · intro a elementType size flags hr he
    have hlow : (size.toNat % 2 ^ 32).toUInt64 = size % 0x100000000 := by
      rw [← hsize, Nat.toUInt64, UInt64.ofNat_toNat]
    rw [hrs.layout? h hr he, hlow]
    simp only [flags_iff]

/-- A value, a string, the type of the value, and a container type with such elements. -/
def sampleRecordings : List Recording :=
  [.boxed 0x2008 0x5000 [1, 2, 3], .string 0x7008 "é!", .datatype 0x5000 (2 ^ 32 + 3) 4,
    .containerType 0x9000 0x5000]

/-- They read back, also in the reverse order and over old words. -/
theorem recorded_reads_back_sampleRecordings : Recordable sampleRecordings ∧
    let image := (({} : HeapImage).writeWord 0x2008 (~~~0)).recordAll sampleRecordings.reverse
    image.reconstruct? 0x7008 = some (.string "é!") ∧
    image.reconstruct? 0x2008 = some (.bytes "type@0x5000" [1, 2, 3]) ∧
    image.layout? 0x9000 = some (.inPlace 3) := by
  have hrs : Recordable sampleRecordings := by
    have hnodup : (sampleRecordings.flatMap footprint).Nodup := by decide +kernel
    exact ⟨by simp [sampleRecordings, Fits]; decide, (List.nodup_flatMap.mp hnodup).2⟩
  obtain ⟨horder, hstring, hboxed, hlayout⟩ :=
    recorded_reads_back (({} : HeapImage).writeWord 0x2008 (~~~0)) hrs
  refine ⟨hrs, ?_⟩
  dsimp only
  rw [horder _ (List.reverse_perm _).symm]
  refine ⟨hstring _ _ (by simp [sampleRecordings]) (by decide), ?_, ?_⟩
  · exact hboxed 0x2008 0x5000 (2 ^ 32 + 3) 4 [1, 2, 3] (by simp [sampleRecordings])
      (by simp [sampleRecordings]) (by decide) (by decide) (by decide) (by decide) (by decide)
  · exact hlayout 0x9000 0x5000 (2 ^ 32 + 3) 4 (by simp [sampleRecordings]) (by simp [sampleRecordings])

end Freestanding.HeapImage
