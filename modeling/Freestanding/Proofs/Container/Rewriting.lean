import Freestanding.Proofs.Attempt
import Freestanding.Proofs.Container.Blanking
import Freestanding.Proofs.Container.Sites

/-!
# What becomes of a body

A block goes through three changes: its dereferences, its creations and its markers.  Here they are one
change, described line by line on the block as it was: a load becomes a cast, its comparison goes, its
branch becomes a jump, an allocation becomes the instructions that create the container, a marker goes,
and every other line stays.  The blocks to which the branches led for a null value are left out.

## Main definitions

* `Container.Becomes` — what becomes of a line.
* `Container.BlockChange` — a block with its sites, and the lines after the change.
* `Container.Rewrites` — what becomes of a body.
* `Container.Counts` — a tally has the numbers of loads, allocations and markers.

## Main results

* `Container.exists_of_lowerBlock` — the three changes of a block are one.
* `Container.exists_of_lowerBody` — **what becomes of a body, and how much is counted.**
-/

namespace Freestanding.Container

open Idiom

/-- The symbol of the empty instance starts no idiom and stands on one line. -/
structure Context.Proper (c : Context) : Prop where
  /-- There is one sigil, before an underscore. -/
  symbol : ∃ tail, c.singleton = '@' :: '_' :: tail ∧ '@' ∉ tail
  /-- There is no line feed. -/
  newline : '\n' ∉ c.singleton

/-- The place belongs to none of the sites. -/
def Elsewhere (sites : List Site) (i : Nat) : Prop :=
  i ∉ sites.map Site.load ∧ i ∉ sites.map Site.check ∧ i ∉ sites.map Site.branch

/-- What becomes of a line at a place of a block with the given sites. -/
inductive Becomes (c : Context) (sites : List Site) : Text × Nat → List Text → Prop
  /-- A load becomes a cast of the empty instance. -/
  | cast {line : Text} {s : Site} (hs : s ∈ sites) :
      Becomes c sites (line, s.load) [s.castLine c.singleton]
  /-- The comparison of its value goes. -/
  | checked {line : Text} {s : Site} (hs : s ∈ sites) : Becomes c sites (line, s.check) []
  /-- The branch becomes a jump to where it led for a value that is not null. -/
  | jump {line : Text} {s : Site} (hs : s ∈ sites) : Becomes c sites (line, s.branch) [s.jumpLine]
  /-- An allocation becomes the instructions that create the container. -/
  | created {line operands : Text} {i : Nat} {creation : Creation} (hi : Elsewhere sites i)
      (hoperands : allocation? line = some operands) (hcall : Allocates line operands)
      (hcreation : creation.Of c.layouts line operands) : Becomes c sites (line, i) creation.lines
  /-- A marker goes. -/
  | unmarked {line : Text} {i : Nat} (hi : Elsewhere sites i) (hmarker : isMarker line) :
      Becomes c sites (line, i) []
  /-- Every other line stays. -/
  | same {line : Text} {i : Nat} (hi : Elsewhere sites i) (hload : Dereference.load? c.table line = none)
      (hallocation : allocation? line = none) (hmarker : isMarker line = false) :
      Becomes c sites (line, i) [line]

/-- A block, its sites, and its lines after the change. -/
structure BlockChange where
  /-- The block. -/
  block : Block
  /-- The loads of the block with their comparisons and branches. -/
  sites : List Site
  /-- The lines after the change. -/
  lines : List Text

/-- The block after the change. -/
def BlockChange.after (change : BlockChange) : Block :=
  { change.block with lines := change.lines }

/-- The sites are those of the block, and its lines become what they should. -/
structure BlockChange.Holds (c : Context) (change : BlockChange) : Prop where
  /-- The sites belong to the block. -/
  follows : Follows c.table change.block.lines change.sites
  /-- Every load of the block is a site. -/
  loads : ∀ (i : Nat) (line : Text), change.block.lines[i]? = some line → Kind.load.reads c.table line →
    i ∈ change.sites.map Site.load
  /-- What becomes of the lines. -/
  lines : ∃ news, List.Forall₂ (Becomes c change.sites) change.block.lines.zipIdx news ∧
    change.lines = news.flatten

/-- The labels to which the branches of the sites led for a null value. -/
def failures (changes : List BlockChange) : List Text :=
  changes.flatMap fun change => change.sites.map Site.failure

/-- What becomes of a body, block by block. -/
structure Rewrites (c : Context) (body : Text) (changes : List BlockChange) (new : Text) : Prop where
  /-- The changes are those of the blocks of the body. -/
  blocks : changes.map BlockChange.block = Block.split body
  /-- Each block changes as it should. -/
  holds : ∀ change ∈ changes, change.Holds c
  /-- The branches led to blocks of the body. -/
  labels : ∀ label ∈ failures changes, ∃ b ∈ Block.split body, b.hasLabel label
  /-- The new body has the lines of all blocks but those. -/
  lines : new = Text.unlines (changes.flatMap fun change =>
    if Block.isTarget (failures changes) (Block.split body) change.block then [] else change.lines)

/-- The operands of an allocation name a container type whose elements are references. -/
def boxedOperands (layouts : Layouts) (operands : Text) : Bool :=
  (((operands.splitOn ',').head?.bind fun type => Creation.typeSymbol? (Text.trim type)).bind (layouts[·]?)).any
    (·.boxed)

/-- A tally has the numbers of loads, allocations and markers among the lines. -/
structure Counts (c : Context) (lines : List Text) (tally : Tally) : Prop where
  /-- Loads. -/
  dereferences : tally.dereferences = lines.countP fun line => Kind.load.reads c.table line
  /-- Allocations. -/
  allocations : tally.allocations = lines.countP fun line => Kind.allocation.reads c.table line
  /-- Markers. -/
  markers : tally.markers = lines.countP fun line => Kind.marker.reads c.table line
  /-- Allocations for references. -/
  cleared : tally.cleared = lines.countP fun line => (allocation? line).any (boxedOperands c.layouts)

variable {c : Context}

theorem Counts.nil : Counts c [] {} := ⟨rfl, rfl, rfl, rfl⟩

theorem Counts.add {lines lines' : List Text} {tally tally' : Tally} (h : Counts c lines tally)
    (h' : Counts c lines' tally') : Counts c (lines ++ lines') (tally.add tally') where
  dereferences := by rw [List.countP_append, ← h.dereferences, ← h'.dereferences]; rfl
  allocations := by rw [List.countP_append, ← h.allocations, ← h'.allocations]; rfl
  markers := by rw [List.countP_append, ← h.markers, ← h'.markers]; rfl
  cleared := by rw [List.countP_append, ← h.cleared, ← h'.cleared]; rfl

theorem Counts.foldl {liness : List (List Text)} {tallies : List Tally}
    (h : List.Forall₂ (Counts c) liness tallies) {lines : List Text} {tally : Tally}
    (hstart : Counts c lines tally) : Counts c (lines ++ liness.flatten) (tallies.foldl Tally.add tally) := by
  induction h generalizing lines tally with
  | nil => simpa using hstart
  | cons hfirst _ ih =>
    rw [List.flatten_cons, ← List.append_assoc]
    exact ih (hstart.add hfirst)

/-! ### Lines -/

/-- The instructions that take the place of a line, and the creation that they make up. -/
def lineAfter (c : Context) (line : Text) : List Text × Option Creation :=
  (lowerLine c line).toOption.getD ([line], none)

theorem lineAfter_of_none {line : Text} (h : allocation? line = none) :
    lineAfter c line = ([line], none) := by
  rw [lineAfter, lowerLine, h]
  rfl

/-- The lines after their changes, if all of them could be changed. -/
theorem lowered_eq {lines : List Text} {lowered : List (List Text × Option Creation)}
    (h : lines.mapM (lowerLine c) = .ok lowered) :
    lowered = lines.map (lineAfter c) ∧ ∀ line ∈ lines, ∀ operands, allocation? line = some operands →
      ∃ creation : Creation, creation.Of c.layouts line operands ∧
        lineAfter c line = (creation.lines, some creation) := by
  have hall := Except.mapM_eq_ok_iff.mp h
  have hafter : ∀ line after, lowerLine c line = .ok after → lineAfter c line = after := by
    intro line after hline
    rw [lineAfter, hline]
    rfl
  constructor
  · have hmap : List.Forall₂ (· = ·) (lines.map (lineAfter c)) lowered :=
      List.forall₂_map_left_iff.mpr (hall.imp hafter)
    rw [List.forall₂_eq_eq_eq] at hmap
    exact hmap.symm
  · intro line hline operands hoperands
    obtain ⟨after, -, hok⟩ := hall.flip.exists_of_mem hline
    have hok : lowerLine c line = .ok after := hok
    rw [hafter line after hok]
    rw [lowerLine, hoperands] at hok
    dsimp only at hok
    cases hread : Creation.read c.layouts c.function line operands with
    | error e => rw [hread] at hok; cases hok
    | ok creation =>
      rw [hread] at hok
      exact ⟨creation, Creation.read_eq_ok_iff.mp hread, (Except.ok.inj hok).symm⟩

/-- The operands of a creation tell whether its elements are references. -/
theorem boxedOperands_of {line operands : Text} {creation : Creation}
    (h : creation.Of c.layouts line operands) :
    boxedOperands c.layouts operands = creation.layout.boxed := by
  obtain ⟨type, length, symbol, count, hpieces, hlast, hhead, hlayout, -⟩ := h.operands
  have hsymbol : Creation.typeSymbol? (Text.trim type) = some symbol := by
    rw [Creation.typeSymbol?, hlast, Option.filter_some, if_pos (by rw [hhead]; rfl)]
  rw [boxedOperands, hpieces, List.head?_cons, Option.bind_some, hsymbol, Option.bind_some, hlayout,
    Option.any_some]

/-! ### Places of a block -/

section Places

variable {sites : List Site} {lines : List Text}

/-- The instructions that take the place of the line at a place, markers among them. -/
def placeTexts (c : Context) (sites : List Site) (p : Text × Nat) : List Text :=
  (edited (allEdits c.singleton sites) p).flatMap fun t => (lineAfter c t).1

/-- The creations at a place. -/
def placeCreations (c : Context) (sites : List Site) (p : Text × Nat) : List Creation :=
  (edited (allEdits c.singleton sites) p).filterMap fun t => (lineAfter c t).2

/-- What happens at a place, and what is counted there. -/
structure PlaceChange (c : Context) (sites : List Site) (p : Text × Nat) : Prop where
  /-- What becomes of the line. -/
  becomes : Becomes c sites p ((placeTexts c sites p).filter (!isMarker ·))
  /-- A marker is counted. -/
  markers : (placeTexts c sites p).countP isMarker = (Kind.marker.reads c.table p.1).toNat
  /-- An allocation is counted. -/
  allocations : (placeCreations c sites p).length = (Kind.allocation.reads c.table p.1).toNat
  /-- An allocation for references is counted. -/
  cleared : (placeCreations c sites p).countP (·.layout.boxed) =
    ((allocation? p.1).any (boxedOperands c.layouts)).toNat

/-- A place that belongs to a site. -/
theorem placeChange_of_edit (hc : c.Proper)
    (hregular : ∀ line ∈ lines, Regular c.table line) (hsites : Follows c.table lines sites)
    {line : Text} {i : Nat} (hline : lines[i]? = some line) {new : List Text}
    (hnew : (allEdits c.singleton sites).lookup i = some new) : PlaceChange c sites (line, i) := by
  have hmem := List.mem_of_lookup hnew
  have hinert : ∀ t ∈ new, Inert t := by
    obtain ⟨tail, htext, htail⟩ := hc.symbol
    rw [htext] at hmem
    exact hsites.inert hregular htail _ hmem
  have hedited : edited (allEdits c.singleton sites) (line, i) = new := by
    rw [edited, hnew]
    rfl
  have hafter : ∀ t ∈ new, lineAfter c t = ([t], none) := fun t ht =>
    lineAfter_of_none (hinert t ht).silent.allocation?_eq_none
  have htexts : placeTexts c sites (line, i) = new := by
    rw [placeTexts, hedited, List.flatMap_congr fun t ht => by rw [hafter t ht]]
    exact List.flatMap_singleton' new
  have hcreations : placeCreations c sites (line, i) = [] := by
    rw [placeCreations, hedited, List.filterMap_eq_nil_iff]
    intro t ht
    rw [hafter t ht]
  have hno : ∀ k : Kind, k ≠ .load → k ≠ .check → k ≠ .branch → k.reads c.table line = false := by
    intro k hload hcheck hbranch
    rw [Bool.eq_false_iff]
    intro hk
    rcases hsites.kind_of_edit hregular hmem hline hk with h | h | h
    · exact hload h.1
    · exact hcheck h.1
    · exact hbranch h.1
  have hallocation := hno .allocation (by simp) (by simp) (by simp)
  have hmarkers : ∀ t ∈ new, isMarker t = false := fun t ht => (hinert t ht).silent.isMarker_eq_false
  refine ⟨?_, ?_, ?_, ?_⟩
  · rw [htexts, List.filter_eq_self.mpr fun t ht => by rw [hmarkers t ht]; rfl]
    obtain ⟨s, hs, he⟩ := List.mem_flatMap.mp hmem
    simp only [Site.edits, List.mem_cons, Prod.mk.injEq, List.not_mem_nil, or_false] at he
    rcases he with ⟨rfl, rfl⟩ | ⟨rfl, rfl⟩ | ⟨rfl, rfl⟩
    · exact .cast hs
    · exact .checked hs
    · exact .jump hs
  · rw [htexts, hno .marker (by simp) (by simp) (by simp),
       List.countP_eq_zero.mpr fun t ht => by rw [hmarkers t ht]; simp]
    rfl
  · rw [hcreations, hallocation]
    rfl
  · rw [Kind.reads, Option.isSome_eq_false_iff, Option.isNone_iff_eq_none] at hallocation
    rw [hcreations, hallocation]
    rfl

/-- A place that belongs to no site. -/
theorem placeChange_of_elsewhere {line : Text} {i : Nat} (hregular : Regular c.table line)
    (hnew : (allEdits c.singleton sites).lookup i = none)
    (hload : Kind.load.reads c.table line → i ∈ sites.map Site.load)
    (hcreation : ∀ operands, allocation? line = some operands →
      ∃ creation : Creation, creation.Of c.layouts line operands ∧
        lineAfter c line = (creation.lines, some creation)) : PlaceChange c sites (line, i) := by
  have hi : Elsewhere sites i := notMem_of_lookup hnew
  have hedited : edited (allEdits c.singleton sites) (line, i) = [line] := by
    rw [edited, hnew]
    rfl
  have htexts : placeTexts c sites (line, i) = (lineAfter c line).1 := by
    rw [placeTexts, hedited, List.flatMap_singleton]
  have hcreations : placeCreations c sites (line, i) = (lineAfter c line).2.toList := by
    rw [placeCreations, hedited, List.filterMap_cons]
    cases (lineAfter c line).2 <;> rfl
  cases hoperands : allocation? line with
  | some operands =>
    obtain ⟨creation, hof, hafter⟩ := hcreation operands hoperands
    have hsilent := hof.silent_lines hregular hoperands
    have hmarkers : ∀ t ∈ creation.lines, isMarker t = false := fun t ht => (hsilent t ht).isMarker_eq_false
    have hno : Kind.marker.reads c.table line = false := by
      rw [Bool.eq_false_iff]
      intro hmarker
      cases hregular.single .allocation .marker (by rw [Kind.reads, hoperands]; rfl) hmarker
    rw [hafter] at htexts hcreations
    refine ⟨?_, ?_, ?_, ?_⟩
    · rw [htexts, List.filter_eq_self.mpr fun t ht => by rw [hmarkers t ht]; rfl]
      exact .created hi hoperands (allocates_of_allocation? hoperands) hof
    · rw [htexts, hno, List.countP_eq_zero.mpr fun t ht => by rw [hmarkers t ht]; simp]
      rfl
    · rw [hcreations, Kind.reads, hoperands]
      rfl
    · rw [hcreations, hoperands, Option.any_some, boxedOperands_of hof, Option.toList_some, List.countP_singleton]
      cases creation.layout.boxed <;> rfl
  | none =>
    rw [lineAfter_of_none hoperands] at htexts hcreations
    refine ⟨?_, ?_, ?_, ?_⟩
    · rw [htexts]
      cases hmarker : isMarker line with
      | true =>
        rw [List.filter_singleton, hmarker]
        exact .unmarked hi hmarker
      | false =>
        rw [List.filter_singleton, hmarker]
        refine .same hi ?_ hoperands hmarker
        rw [← Option.not_isSome_iff_eq_none]
        exact fun hsome => hi.1 (hload hsome)
    · rw [htexts, List.countP_singleton, Kind.reads]
      cases isMarker line <;> rfl
    · rw [hcreations, Kind.reads, hoperands]
      rfl
    · rw [hcreations, hoperands]
      rfl

/-- What is counted place by place is counted line by line. -/
theorem countP_places {β : Type} {g : Text × Nat → List β} {q : β → Bool} {r : Text → Bool}
    (h : ∀ p ∈ lines.zipIdx, (g p).countP q = (r p.1).toNat) :
    (lines.zipIdx.flatMap g).countP q = lines.countP r := by
  rw [← countP_zipIdx]
  generalize lines.zipIdx = places at h ⊢
  induction places with
  | nil => rfl
  | cons p places ih =>
    rw [List.flatMap_cons, List.countP_append, ih fun p hp => h p (List.mem_cons_of_mem _ hp),
      h p List.mem_cons_self, List.countP_cons, Nat.add_comm]
    cases r p.1 <;> rfl

end Places

/-! ### Blocks -/

/-- **The changes of a block are one**: what becomes of its lines, and how much is counted. -/
theorem exists_of_lowerBlock (hc : c.Proper)
    {b b' : Block} (hregular : ∀ line ∈ b.lines, Regular c.table line) {labels : List Text} {tally : Tally}
    (h : lowerBlock c b = .ok (b', labels, tally)) :
    ∃ change : BlockChange, change.block = b ∧ change.Holds c ∧ b' = change.after ∧
      labels = change.sites.map Site.failure ∧ Counts c b.lines tally := by
  obtain ⟨tail, htext, htail⟩ := hc.symbol
  unfold lowerBlock at h
  obtain ⟨⟨out, labels'⟩, hall, h⟩ := Except.bind_eq_ok_iff.mp h
  obtain ⟨lowered, hlowered, h⟩ := Except.bind_eq_ok_iff.mp h
  obtain ⟨rfl, hrest⟩ := Prod.mk.inj (Except.ok.inj h)
  obtain ⟨rfl, rfl⟩ := Prod.mk.inj hrest
  rw [htext] at hall
  obtain ⟨sites, hfollows, hloads, rfl, rfl⟩ := Dereference.exists_sites htail hregular hall
  rw [← htext] at hlowered
  obtain ⟨rfl, hcreation⟩ := lowered_eq hlowered
  have hplace : ∀ p ∈ b.lines.zipIdx, PlaceChange c sites p := by
    rintro ⟨line, i⟩ hp
    have hline := List.mem_zipIdx_iff_getElem?.mp hp
    cases hlookup : (allEdits c.singleton sites).lookup i with
    | some new => exact placeChange_of_edit hc hregular hfollows hline hlookup
    | none =>
      refine placeChange_of_elsewhere (hregular line (List.mem_of_getElem? hline)) hlookup (hloads i line hline)
        (hcreation line (List.mem_flatMap.mpr ⟨_, hp, ?_⟩))
      rw [edited, hlookup]
      exact List.mem_singleton.mpr rfl
  have htexts : ((afterSites c.singleton b.lines sites).map (lineAfter c)).flatMap Prod.fst =
      b.lines.zipIdx.flatMap (placeTexts c sites) := by
    rw [List.flatMap_map, afterSites, List.flatMap_assoc]
    rfl
  have hcreations : ((afterSites c.singleton b.lines sites).map (lineAfter c)).filterMap Prod.snd =
      b.lines.zipIdx.flatMap (placeCreations c sites) := by
    rw [List.filterMap_map, afterSites, List.filterMap_flatMap]
    rfl
  refine ⟨⟨b, sites, (b.lines.zipIdx.flatMap (placeTexts c sites)).filter (!isMarker ·)⟩, rfl,
    ⟨hfollows, hloads, b.lines.zipIdx.map fun p => (placeTexts c sites p).filter (!isMarker ·), ?_, ?_⟩,
    by rw [htexts]; rfl, rfl, ?_, ?_, ?_, ?_⟩
  · exact List.forall₂_map_right_iff.mpr (List.forall₂_same.mpr fun p hp => (hplace p hp).becomes)
  · rw [List.filter_flatMap, List.flatMap_def]
  · exact (List.length_map _).trans (hfollows.length_eq hloads)
  · dsimp only
    rw [hcreations, ← List.countP_true]
    exact countP_places fun p hp => (congrFun List.countP_true _).trans (hplace p hp).allocations
  · dsimp only
    rw [htexts, ← countP_places fun p hp => (hplace p hp).markers, ← List.countP_eq_length_filter,
      List.length_eq_countP_add_countP isMarker]
    simp
  · dsimp only
    rw [hcreations]
    exact countP_places fun p hp => (hplace p hp).cleared

/-! ### Bodies -/

/-- All blocks of a body change as each block does. -/
theorem exists_of_lowerBlocks (hc : c.Proper)
    {blocks : List Block} {lowered : List (Block × List Text × Tally)}
    (hregular : ∀ b ∈ blocks, ∀ line ∈ b.lines, Regular c.table line)
    (h : List.Forall₂ (fun b after => lowerBlock c b = .ok after) blocks lowered) :
    ∃ changes : List BlockChange, changes.map BlockChange.block = blocks ∧
      (∀ change ∈ changes, change.Holds c) ∧
      lowered.map (·.1) = changes.map BlockChange.after ∧
      lowered.flatMap (·.2.1) = failures changes ∧
      List.Forall₂ (Counts c) (blocks.map Block.lines) (lowered.map (·.2.2)) := by
  induction h with
  | nil => exact ⟨[], rfl, nofun, rfl, rfl, .nil⟩
  | @cons b after _ _ hfirst _ ih =>
    obtain ⟨hb, hrest⟩ := List.forall_mem_cons.mp hregular
    obtain ⟨changes, hblocks, hholds, hafter, hlabels, hcounts⟩ := ih hrest
    obtain ⟨b', labels, tally⟩ := after
    obtain ⟨change, rfl, hchange, rfl, rfl, hcount⟩ := exists_of_lowerBlock hc hb hfirst
    refine ⟨change :: changes, by rw [List.map_cons, hblocks], List.forall_mem_cons.mpr ⟨hchange, hholds⟩,
      by rw [List.map_cons, List.map_cons, hafter], ?_, .cons hcount hcounts⟩
    rw [List.flatMap_cons, hlabels]
    rfl

/-- **What becomes of a body, and how much is counted.** -/
theorem exists_of_lowerBody (hc : c.Proper)
    {body new : Text} (hregular : ∀ line ∈ body.lines, Regular c.table line) {tally : Tally}
    (h : lowerBody c body = .ok (new, tally)) :
    (∃ changes, Rewrites c body changes new) ∧ Counts c body.lines tally := by
  unfold lowerBody at h
  obtain ⟨lowered, hlowered, h⟩ := Except.bind_eq_ok_iff.mp h
  obtain ⟨blocks, hblank, h⟩ := Except.bind_eq_ok_iff.mp h
  obtain ⟨rfl, rfl⟩ := Prod.mk.inj (Except.ok.inj h)
  have hblocks : ∀ b ∈ Block.split body, ∀ line ∈ b.lines, Regular c.table line := by
    intro b hb line hline
    refine hregular line ?_
    rw [← Block.flatMap_lines_split]
    exact List.mem_flatMap.mpr ⟨b, hb, hline⟩
  obtain ⟨changes, hsplit, hholds, hafter, hlabels, hcounts⟩ :=
    exists_of_lowerBlocks hc hblocks (Except.mapM_eq_ok_iff.mp hlowered)
  -- changed blocks have the labels and positions of the blocks before
  have hsignature : (changes.map BlockChange.after).map (fun b => (b.label, b.index)) =
      (Block.split body).map fun b => (b.label, b.index) := by
    rw [← hsplit, List.map_map, List.map_map]
    rfl
  have hindex : ((changes.map BlockChange.after).map Block.index).Nodup := by
    have hnodup := Block.nodup_index_split body
    rw [← hsplit, List.map_map] at hnodup
    rwa [List.map_map]
  rw [hafter, hlabels] at hblank
  obtain ⟨hfound, rfl⟩ := blankLabels_eq_ok hblank hindex
  refine ⟨⟨changes, hsplit, hholds, fun label hlabel => ?_, ?_⟩, ?_⟩
  · obtain ⟨b, hb, hlabel⟩ := hfound label hlabel
    obtain ⟨change, hchange, rfl⟩ := List.mem_map.mp hb
    exact ⟨change.block, hsplit ▸ List.mem_map_of_mem hchange, hlabel⟩
  · rw [Block.join, List.map_map, List.flatMap_map]
    refine congrArg Text.unlines (List.flatMap_congr fun change _ => ?_)
    have htarget : Block.isTarget (failures changes) (changes.map BlockChange.after) change.after =
        Block.isTarget (failures changes) (Block.split body) change.block :=
      Block.isTarget_congr hsignature _ rfl
    rw [Function.comp_apply, htarget]
    unfold Block.blankIf
    split
    · rfl
    · rfl
  · have hall := Counts.foldl hcounts Counts.nil
    rwa [List.nil_append, ← List.flatMap_def, Block.flatMap_lines_split] at hall

/-- The bodies of a listing change one by one. -/
theorem forall₂_of_lowerBodies (hc : c.Proper)
    {bodies news : List Text} (hregular : ∀ body ∈ bodies, ∀ line ∈ Text.lines body, Regular c.table line)
    {tally : Tally} (h : lowerBodies c bodies = (news, .ok tally)) :
    List.Forall₂ (fun body new => ∃ changes, Rewrites c body changes new) bodies news ∧
      Counts c (bodies.flatMap Text.lines) tally := by
  induction bodies generalizing news tally with
  | nil =>
    obtain ⟨rfl, htally⟩ := Prod.mk.inj h
    obtain rfl := Except.ok.inj htally
    exact ⟨.nil, .nil⟩
  | cons body bodies ih =>
    obtain ⟨hbody, hrest⟩ := List.forall_mem_cons.mp hregular
    rw [lowerBodies] at h
    split at h
    · cases (Prod.mk.inj h).2
    · next new tally' hnew =>
      obtain ⟨rfl, htally⟩ := Prod.mk.inj h
      cases hok : (lowerBodies c bodies).2 with
      | error e => rw [hok] at htally; cases htally
      | ok more =>
        rw [hok] at htally
        obtain rfl := Except.ok.inj htally
        obtain ⟨hchange, hcount⟩ := exists_of_lowerBody hc hbody hnew
        obtain ⟨hchanges, hcounts⟩ := ih hrest (Prod.ext rfl hok)
        exact ⟨.cons hchange hchanges, hcount.add hcounts⟩

end Freestanding.Container
