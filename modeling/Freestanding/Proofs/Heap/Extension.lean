import Freestanding.Proofs.Heap.Bytes

/-!
# More memory, same answers

A host may record more of its memory than was read so far.  Whatever can be read from an image can then
be read from the larger one as well, and it is the same: a word, bytes, a tag, a size, a layout or a whole
object.  Reading follows words from one place to the next, and a word that is missing ends it; no step
turns on the absence of a word.

## Main definitions

* `HeapImage.Extends` — every word of an image is in a larger one.
* `HeapImage.Keeps` — the second attempt gives what the first one gives.

## Main results

* `HeapImage.Keeps.bind`, `HeapImage.Keeps.mapM` — attempts made of kept attempts are kept.
* `HeapImage.extends_writeWord` — recording a word that was missing extends an image.
* `HeapImage.Extends.keeps_answers` — **recording more memory never changes an answer.**
-/

namespace Freestanding.HeapImage

/-- Every word of the first image is in the second one, with the same value. -/
def Extends (h h' : HeapImage) : Prop :=
  ∀ k w : UInt64, h.words[k]? = some w → h'.words[k]? = some w

/-- What the first attempt gives, the second one gives as well. -/
def Keeps {α : Type} (x y : Option α) : Prop :=
  ∀ v, x = some v → y = some v

/-! ### Attempts -/

namespace Keeps

variable {α β : Type} {x y : Option α} {f g : α → Option β}

theorem refl (x : Option α) : Keeps x x :=
  fun _ hv => hv

theorem bind (hx : Keeps x y) (hf : ∀ v, Keeps (f v) (g v)) : Keeps (x >>= f) (y >>= g) := by
  intro b hb
  obtain ⟨v, hv, hb⟩ := Option.bind_eq_some_iff.mp hb
  exact Option.bind_eq_some_iff.mpr ⟨v, hx v hv, hf v b hb⟩

theorem map (hx : Keeps x y) (f : α → β) : Keeps (x.map f) (y.map f) := by
  intro b hb
  obtain ⟨v, hv, rfl⟩ := Option.map_eq_some_iff.mp hb
  rw [hx v hv, Option.map_some]

/-- The same case is taken on both sides. -/
theorem ite {c : Prop} [Decidable c] {x' y' : Option α} (hx : Keeps x y) (hx' : Keeps x' y') :
    Keeps (if c then x else x') (if c then y else y') := by
  split
  · exact hx
  · exact hx'

theorem mapM (hf : ∀ v, Keeps (f v) (g v)) (vs : List α) : Keeps (vs.mapM f) (vs.mapM g) := by
  induction vs with
  | nil => exact refl _
  | cons v vs ih =>
    rw [List.mapM_cons, List.mapM_cons]
    exact (hf v).bind fun _ => ih.bind fun _ => refl _

end Keeps

/-! ### Reading from the larger image -/

namespace Extends

variable {h h' : HeapImage} (hext : h.Extends h')
include hext

private theorem keeps_byteAt? (x : Nat) : Keeps (h.byteAt? x) (h'.byteAt? x) := by
  have hbyte : ∀ a, Keeps (h.byte? a) (h'.byte? a) :=
    fun a => Keeps.map (hext (Address.aligned a)) _
  exact (hbyte x.toUInt64).ite (.refl none)

theorem keeps_readBytes? (a : UInt64) (n : Nat) : Keeps (h.readBytes? a n) (h'.readBytes? a n) := by
  rw [readBytes?_eq_mapM, readBytes?_eq_mapM]
  exact .mapM hext.keeps_byteAt? _

theorem keeps_readWord? (a : UInt64) : Keeps (h.readWord? a) (h'.readWord? a) :=
  .ite (hext a) ((hext.keeps_readBytes? a 8).map wordOfBytes)

theorem keeps_tag? (a : UInt64) : Keeps (h.tag? a) (h'.tag? a) :=
  (Keeps.refl _).bind fun header => (hext.keeps_readWord? header).bind fun _ => .refl _

theorem keeps_datatypeSize? (d : UInt64) : Keeps (h.datatypeSize? d) (h'.datatypeSize? d) := by
  refine (Keeps.refl _).bind fun place => (hext.keeps_readWord? place).bind fun layout => ?_
  exact .ite (.refl none) ((hext.keeps_readWord? layout).bind fun _ => .refl _)

private theorem keeps_layout? (c : UInt64) : Keeps (h.layout? c) (h'.layout? c) := by
  refine (Keeps.refl _).bind fun place => (hext.keeps_readWord? place).bind fun parameters => ?_
  refine (Keeps.refl _).bind fun place => (hext.keeps_readWord? place).bind fun elementType => ?_
  refine (Keeps.refl _).bind fun place => (hext.keeps_readWord? place).bind fun flags => ?_
  exact .ite (.refl _) ((hext.keeps_datatypeSize? elementType).bind fun _ => .refl _)

private theorem keeps_reconstruct? (a : UInt64) : Keeps (h.reconstruct? a) (h'.reconstruct? a) := by
  refine (hext.keeps_tag? a).bind fun tag => .ite ?_ (.ite ?_ (.refl none))
  · refine (hext.keeps_readWord? a).bind fun length => .ite (.refl none) ?_
    exact (Keeps.refl _).bind fun start => (hext.keeps_readBytes? start _).bind fun _ => .refl _
  · refine (hext.keeps_datatypeSize? tag).bind fun size => .ite (.refl none) ?_
    exact (hext.keeps_readBytes? a _).bind fun _ => .refl _

/-- **Recording more memory never changes an answer.**  Let every word of an image be in a second one, with
the same value.  Then every word, every range of bytes, every tag, every size of a type, every layout and
every object that can be read from the first image is read from the second one, and it is the same. -/
theorem keeps_answers (a : UInt64) :
    Keeps (h.readWord? a) (h'.readWord? a) ∧
    (∀ n, Keeps (h.readBytes? a n) (h'.readBytes? a n)) ∧
    Keeps (h.tag? a) (h'.tag? a) ∧
    Keeps (h.datatypeSize? a) (h'.datatypeSize? a) ∧
    Keeps (h.layout? a) (h'.layout? a) ∧
    Keeps (h.reconstruct? a) (h'.reconstruct? a) :=
  ⟨hext.keeps_readWord? a, hext.keeps_readBytes? a, hext.keeps_tag? a, hext.keeps_datatypeSize? a,
    hext.keeps_layout? a, hext.keeps_reconstruct? a⟩

end Extends

/-- Recording a word that was missing extends an image. -/
theorem extends_writeWord {h : HeapImage} {a : UInt64} (ha : a.toNat % 8 = 0) (hnone : h.words[a]? = none)
    (w : UInt64) : h.Extends (h.writeWord a w) := by
  intro k v hk
  have hne : a ≠ k := by
    rintro rfl
    rw [hnone] at hk
    cases hk
  rw [writeWord, Address.aligned_eq_self ha, Std.ExtTreeMap.getElem?_insert, if_neg]
  · exact hk
  · rwa [Std.LawfulEqCmp.compare_eq_iff_eq]

/-- A string of two bytes at `0x7008`. -/
def shortString : HeapImage :=
  ({} : HeapImage).defineString 0x7008 "hi"

/-- The string is still there when the word behind it is recorded, and so is the word across its header
and its length. -/
theorem keeps_answers_shortString :
    let larger := shortString.writeWord 0x7018 7
    shortString.Extends larger ∧ larger.reconstruct? 0x7008 = some (.string "hi") ∧
    larger.readWord? 0x7004 = some 0x200000000 := by
  intro larger
  have hext : shortString.Extends larger := extends_writeWord (by decide) (by decide +kernel) 7
  obtain ⟨-, -, -, -, -, hstring⟩ := hext.keeps_answers 0x7008
  obtain ⟨hword, -⟩ := hext.keeps_answers 0x7004
  exact ⟨hext, hstring _ (by decide +kernel), hword _ (by decide +kernel)⟩

end Freestanding.HeapImage
