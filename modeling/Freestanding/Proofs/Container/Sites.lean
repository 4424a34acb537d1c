import Freestanding.Proofs.Container.Silence
import Freestanding.Proofs.Lists

/-!
# Where empty instances are loaded

The loads of a block are dealt with one after the other, and each change makes the block shorter, so
that the lines have other positions afterwards.  Here all changes are described on the block as it was:
a site has the places of a load, of the comparison that belongs to it and of the branch on the outcome,
and what becomes of the block is told line by line.  The comparison of a load is the first one of its
value behind it that no earlier load has, and the branch likewise.

## Main definitions

* `Site` — a load with its comparison and its branch, by their places in a block.
* `Site.edits`, `edited` — the lines that change for a site, and what becomes of a line.
* `Site.On`, `Follows` — a site of a block that comes after others, and the sites of a block in order.

## Main results

* `Dereference.exists_site` — one step: what is found first is a site, and the lines change accordingly.
* `Dereference.exists_sites` — **all loads of a block are sites of it, and the lines change accordingly.**
-/

namespace Freestanding

open Idiom

/-! ### Sites -/

/-- A load of an empty instance with its comparison and its branch, by their places in a block. -/
structure Site where
  /-- The place of the load. -/
  load : Nat
  /-- The place of the comparison. -/
  check : Nat
  /-- The place of the branch. -/
  branch : Nat
  /-- The white space before the load. -/
  indent : Text
  /-- The value that is loaded. -/
  value : Text
  /-- The comparison. -/
  comparison : NullCheck
  /-- The branch. -/
  fork : Branch
  deriving DecidableEq, Repr

namespace Site

/-- Where the branch leads if the loaded value is null. -/
def failure (s : Site) : Text :=
  s.fork.ifNull s.comparison

/-- Where the branch leads if the loaded value is not null. -/
def success (s : Site) : Text :=
  s.fork.ifNotNull s.comparison

/-- The line that takes the place of the load. -/
def castLine (singleton : Text) (s : Site) : Text :=
  castText s.indent s.value singleton

/-- The line that takes the place of the branch. -/
def jumpLine (s : Site) : Text :=
  s.fork.jumpText s.success

/-- The places that change and the lines that take the place of the old one there. -/
def edits (singleton : Text) (s : Site) : List (Nat × List Text) :=
  [(s.load, [s.castLine singleton]), (s.check, []), (s.branch, [s.jumpLine])]

/-- The site belongs to the lines of a block, and comes after others: load, comparison and branch follow
each other, they are about the same values, and each is the first one that no earlier site has. -/
structure On (table : AddressTable) (lines : List Text) (earlier : List Site) (s : Site) : Prop where
  /-- There is a load at the first place. -/
  load : ∃ line, lines[s.load]? = some line ∧ Kind.load.reads table line ∧
    Line.assigned? line = some s.value ∧ s.indent = line.takeWhile Text.isBlank
  /-- The earlier loads are those of the earlier sites. -/
  load_first : s.load ∉ earlier.map Site.load ∧ ∀ (i : Nat) (line : Text), i < s.load → lines[i]? = some line →
    Kind.load.reads table line → i ∈ earlier.map Site.load
  /-- There is a comparison of the value at the second place. -/
  check : ∃ line, s.load < s.check ∧ lines[s.check]? = some line ∧ nullCheck? line = some s.comparison ∧
    s.comparison.value = s.value
  /-- Comparisons of the value between the two places are those of earlier sites. -/
  check_first : s.check ∉ earlier.map Site.check ∧ ∀ (i : Nat) (line : Text) (c : NullCheck), s.load < i →
    i < s.check → lines[i]? = some line → nullCheck? line = some c → c.value = s.value →
      i ∈ earlier.map Site.check
  /-- There is a branch on the outcome at the third place. -/
  branch : ∃ line, s.check < s.branch ∧ lines[s.branch]? = some line ∧ branch? line = some s.fork ∧
    s.fork.flag = s.comparison.flag
  /-- Branches on the outcome between the two places are those of earlier sites. -/
  branch_first : s.branch ∉ earlier.map Site.branch ∧ ∀ (i : Nat) (line : Text) (b : Branch), s.check < i →
    i < s.branch → lines[i]? = some line → branch? line = some b → b.flag = s.comparison.flag →
      i ∈ earlier.map Site.branch

end Site

/-- The sites belong to the lines of a block, each after the ones before it. -/
def Follows (table : AddressTable) (lines : List Text) (sites : List Site) : Prop :=
  ∀ earlier s later, sites = earlier ++ s :: later → s.On table lines earlier

/-- The lines that take the place of a line. -/
def edited (edits : List (Nat × List Text)) (p : Text × Nat) : List Text :=
  (edits.lookup p.2).getD [p.1]

/-- The places that change for some sites. -/
def allEdits (singleton : Text) (sites : List Site) : List (Nat × List Text) :=
  sites.flatMap (Site.edits singleton)

/-- The lines of a block after the changes for some sites. -/
def afterSites (singleton : Text) (lines : List Text) (sites : List Site) : List Text :=
  lines.zipIdx.flatMap (edited (allEdits singleton sites))

/-! ### Places -/

variable {table : AddressTable} {function singleton : Text} {lines : List Text} {sites : List Site}

theorem length_edited_le (p : Text × Nat) :
    (edited (allEdits singleton sites) p).length ≤ 1 := by
  unfold edited
  cases hlookup : (allEdits singleton sites).lookup p.2 with
  | none => simp
  | some new =>
    obtain ⟨s, -, hs⟩ := List.mem_flatMap.mp (List.mem_of_lookup hlookup)
    have hall : ∀ e ∈ s.edits singleton, e.2.length ≤ 1 := by simp [Site.edits]
    exact hall _ hs

/-- Places increase from line to line. -/
theorem of_zipIdx_eq {before after : List (Text × Nat)} {line : Text} {i : Nat}
    (h : lines.zipIdx = before ++ (line, i) :: after) :
    lines[i]? = some line ∧ (∀ p ∈ before, p.2 < i) ∧ ∀ p ∈ after, i < p.2 := by
  have hsorted : (lines.zipIdx.map Prod.snd).Pairwise (· < ·) := by
    rw [List.zipIdx_map_snd]
    exact List.pairwise_lt_range' 1
  have hmem : (line, i) ∈ lines.zipIdx := by
    rw [h]
    simp
  rw [List.pairwise_map, h, List.pairwise_append, List.pairwise_cons] at hsorted
  exact ⟨List.mem_zipIdx_iff_getElem?.mp hmem, fun p hp => hsorted.2.2 p hp _ List.mem_cons_self,
    hsorted.2.1.1⟩

theorem mem_of_zipIdx_eq {before after : List (Text × Nat)} {line line' : Text} {i m : Nat}
    (h : lines.zipIdx = before ++ (line, i) :: after) (hm : lines[m]? = some line') :
    (m < i → (line', m) ∈ before) ∧ (i < m → (line', m) ∈ after) := by
  obtain ⟨-, hbefore, hafter⟩ := of_zipIdx_eq h
  have hmem : (line', m) ∈ before ++ (line, i) :: after := h ▸ List.mem_zipIdx_iff_getElem?.mpr hm
  rcases List.mem_append.mp hmem with hmem | hmem
  · have hlt : m < i := hbefore _ hmem
    exact ⟨fun _ => hmem, fun hgt => by omega⟩
  · rcases List.mem_cons.mp hmem with he | hmem
    · obtain ⟨-, rfl⟩ := Prod.mk.inj he
      exact ⟨fun hlt => by omega, fun hlt => by omega⟩
    · have hgt : i < m := hafter _ hmem
      exact ⟨fun hlt => by omega, fun _ => hmem⟩

private theorem mem_between_of_zipIdx_eq {before between after : List (Text × Nat)} {a b line : Text} {i j m : Nat}
    (h : lines.zipIdx = before ++ (a, i) :: (between ++ (b, j) :: after)) (hm : lines[m]? = some line)
    (hlow : i < m) (hhigh : m < j) : (line, m) ∈ between := by
  have h' : lines.zipIdx = (before ++ (a, i) :: between) ++ (b, j) :: after := by
    rw [h]
    simp
  rcases List.mem_append.mp ((mem_of_zipIdx_eq h' hm).1 hhigh) with hmem | hmem
  · have hlt : m < i := (of_zipIdx_eq h).2.1 _ hmem
    omega
  · rcases List.mem_cons.mp hmem with he | hmem
    · obtain ⟨-, rfl⟩ := Prod.mk.inj he
      omega
    · exact hmem

/-- Three lines of a block and their places. -/
theorem order_of_zipIdx_eq {before between between' rest : List (Text × Nat)} {a b c : Text} {i j k : Nat}
    (h : lines.zipIdx = before ++ (a, i) :: (between ++ (b, j) :: (between' ++ (c, k) :: rest))) :
    (lines[i]? = some a ∧ lines[j]? = some b ∧ lines[k]? = some c) ∧ (i < j ∧ j < k) ∧
      (∀ p ∈ before, p.2 < i) ∧ (∀ p ∈ between, i < p.2 ∧ p.2 < j) ∧
      (∀ p ∈ between', j < p.2 ∧ p.2 < k) ∧ ∀ p ∈ rest, k < p.2 := by
  have h' : lines.zipIdx = (before ++ (a, i) :: between) ++ (b, j) :: (between' ++ (c, k) :: rest) := by
    rw [h]
    simp
  have h'' : lines.zipIdx = (before ++ (a, i) :: (between ++ (b, j) :: between')) ++ (c, k) :: rest := by
    rw [h]
    simp
  obtain ⟨hi, hbefore, hafter⟩ := of_zipIdx_eq h
  obtain ⟨hj, hbefore', hafter'⟩ := of_zipIdx_eq h'
  obtain ⟨hk, hbefore'', hafter''⟩ := of_zipIdx_eq h''
  exact ⟨⟨hi, hj, hk⟩, ⟨hbefore' (a, i) (by simp), hbefore'' (b, j) (by simp)⟩, hbefore,
    fun p hp => ⟨hafter p (by simp [hp]), hbefore' p (by simp [hp])⟩,
    fun p hp => ⟨hafter' p (by simp [hp]), hbefore'' p (by simp [hp])⟩, hafter''⟩

/-- What a reader finds on a changed line that rejects all new lines is an old line. -/
theorem eq_of_edited {edits : List (Nat × List Text)} {line a : Text} {i : Nat} {β : Type}
    {read : Text → Option β} (hnew : ∀ e ∈ edits, ∀ t ∈ e.2, read t = none)
    (h : edited edits (line, i) = [a]) (ha : (read a).isSome) : edits.lookup i = none ∧ a = line := by
  unfold edited at h
  cases hlookup : edits.lookup i with
  | none =>
    rw [hlookup, Option.getD_none, List.singleton_inj] at h
    exact ⟨rfl, h.symm⟩
  | some new =>
    rw [hlookup, Option.getD_some] at h
    rw [hnew _ (List.mem_of_lookup hlookup) a (by rw [h]; simp)] at ha
    cases ha

/-- The first line of an edited block that a reader accepts, in terms of the block. -/
theorem exists_of_first? {edits : List (Nat × List Text)} {places : List (Text × Nat)} {β : Type}
    {read : Text → Option β} {c : Cut Text β} (hone : ∀ p, (edited edits p).length ≤ 1)
    (hnew : ∀ e ∈ edits, ∀ t ∈ e.2, read t = none)
    (h : Cut.first? read (places.flatMap (edited edits)) = some c) :
    ∃ before i after, places = before ++ (c.found, i) :: after ∧ edits.lookup i = none ∧
      read c.found = some c.reading ∧ c.before = before.flatMap (edited edits) ∧
      c.after = after.flatMap (edited edits) ∧
      ∀ p ∈ before, (read p.1).isSome → ∃ new, (p.2, new) ∈ edits := by
  obtain ⟨happ, hread, hbefore⟩ := Cut.append_eq_of_first? h
  obtain ⟨before, ⟨line, i⟩, after, hplaces, hfound, hl, hr⟩ := List.exists_of_flatMap_eq happ.symm fun p _ => hone p
  obtain ⟨hlookup, hline⟩ := eq_of_edited hnew hfound (by rw [hread]; rfl)
  refine ⟨before, i, after, by rw [hline]; exact hplaces, hlookup, hread, hl, hr, fun p hp hp' => ?_⟩
  cases hedit : edits.lookup p.2 with
  | some new => exact ⟨new, List.mem_of_lookup hedit⟩
  | none =>
    -- the line would have been found before
    have hmem : p.1 ∈ c.before := by
      rw [hl]
      refine List.mem_flatMap.mpr ⟨p, hp, ?_⟩
      rw [edited, hedit]
      exact List.mem_singleton.mpr rfl
    rw [hbefore p.1 hmem] at hp'
    cases hp'

/-! ### New lines -/

/-- A line with no part in what is done about containers. -/
structure Inert (line : Text) : Prop where
  /-- No idiom occurs in it. -/
  silent : Silent line
  /-- It is no comparison. -/
  check : nullCheck? line = none
  /-- It is no branch. -/
  branch : branch? line = none

theorem load?_eq_none_of_silent {line : Text} (h : Silent line) : Dereference.load? table line = none := by
  rw [Dereference.load?, h.emptyLoad?_eq_none]
  rfl

theorem trimStart_blanks_append {indent t : Text} (hindent : ∀ c ∈ indent, Text.isBlank c)
    (ht : ∀ c, t.head? = some c → Text.isBlank c = false) : Text.trimStart (indent ++ t) = t := by
  rw [Text.trimStart, List.dropWhile_append_of_pos hindent]
  exact Text.dropWhile_eq_self ht

theorem castText_trimStart {indent value rest : Text} (hindent : ∀ c ∈ indent, Text.isBlank c)
    (hvalue : Token.IsValue value) :
    Text.trimStart (indent ++ value ++ " = bitcast ptr " ++ rest ++ " to ptr") =
      value ++ (" = bitcast ptr " ++ (rest ++ " to ptr")) := by
  obtain ⟨u, rfl⟩ := Line.head?_of_isValue hvalue
  simp only [List.append_assoc]
  exact trimStart_blanks_append hindent fun c hc => by rw [← Option.some.inj hc]; decide

/-- The cast of the empty instance is inert. -/
theorem inert_cast {indent value tail : Text} (hindent : ∀ c ∈ indent, Text.isBlank c)
    (hvalue : Token.IsValue value) (hsilent : Silent value) (htail : '@' ∉ tail) :
    Inert (indent ++ value ++ " = bitcast ptr " ++ '@' :: '_' :: tail ++ " to ptr") where
  silent := .cast hindent hsilent htail
  check := by
    have hread : Token.read? '%' (value ++ (" = bitcast ptr " ++ ('@' :: '_' :: tail ++ " to ptr"))) =
        some (value, " = bitcast ptr " ++ ('@' :: '_' :: tail ++ " to ptr")) :=
      hvalue.read?_append fun c hc => by rw [← Option.some.inj hc]; decide
    rw [Option.eq_none_iff_forall_ne_some]
    intro c hc
    unfold nullCheck? at hc
    simp only [Option.bind_eq_bind, Option.bind_eq_some_iff, castText_trimStart hindent hvalue] at hc
    obtain ⟨⟨flag, t⟩, hflag, u, hu, -⟩ := hc
    have hnamed := (Option.filter_eq_some_iff.mp hflag).1
    rw [hread] at hnamed
    obtain ⟨-, rfl⟩ := Prod.mk.inj (Option.some.inj hnamed)
    -- a comparison goes on with another keyword
    cases hu
  branch := by
    obtain ⟨u, rfl⟩ := Line.head?_of_isValue hvalue
    unfold branch?
    rw [castText_trimStart hindent hvalue]
    rfl

theorem indent_of_branch? {line : Text} {b : Branch} (h : branch? line = some b) :
    b.indent = line.takeWhile Text.isBlank := by
  unfold branch? at h
  simp only [Option.bind_eq_bind, Option.bind_eq_some_iff] at h
  obtain ⟨t, -, flag, -, u, -, yes, -, v, -, no, -, h⟩ := h
  rw [← Option.some.inj h]

/-- The jump is inert. -/
theorem inert_jump {indent label : Text} (hindent : ∀ c ∈ indent, Text.isBlank c)
    (hsilent : Silent label) : Inert (indent ++ "br label " ++ label) where
  silent := .jump hindent hsilent
  check := by
    unfold nullCheck?
    rw [List.append_assoc, trimStart_blanks_append hindent fun c hc => by rw [← Option.some.inj hc]; decide]
    rfl
  branch := by
    unfold branch?
    rw [List.append_assoc, trimStart_blanks_append hindent fun c hc => by rw [← Option.some.inj hc]; decide]
    rfl

namespace Dereference

/-- What is found first. -/
theorem of_find {d : Dereference} (h : find table function lines = .ok (some d)) :
    Cut.first? (load? table) lines = some d.load ∧ Line.assigned? d.load.found = some d.value ∧
      Cut.first? (fun line => (nullCheck? line).filter (·.value == d.value)) d.load.after = some d.check ∧
      Cut.first? (fun line => (branch? line).filter (·.flag == d.check.reading.flag)) d.check.after =
        some d.branch := by
  unfold find at h
  split at h
  · cases h
  · next load hload =>
    unfold complete at h
    split at h
    · cases h
    · next value hvalue =>
      split at h
      · cases h
      · next check hcheck =>
        dsimp only at h
        split at h
        · cases h
        · next branch hbranch =>
          obtain rfl := Option.some.inj (Except.ok.inj h)
          exact ⟨hload, hvalue, hcheck, hbranch⟩

/-- Nothing is found exactly if there is no load. -/
theorem find_eq_ok_none_iff :
    find table function lines = .ok none ↔ ∀ line ∈ lines, load? table line = none := by
  rw [find, ← Cut.first?_eq_none_iff]
  cases Cut.first? (load? table) lines with
  | none => simp
  | some load =>
    dsimp only
    cases complete function load with
    | error e => exact iff_of_false (fun h => by cases h) (fun h => by cases h)
    | ok d => exact iff_of_false (fun h => by cases Except.ok.inj h) (fun h => by cases h)

/-- A block in which nothing is found stays as it is. -/
theorem all_eq_of_find (h : find table function lines = .ok none) (singleton : Text) :
    all table function singleton lines = .ok (lines, []) := by
  rw [all]
  split
  · next e he => rw [h] at he; cases he
  · rfl
  · next d he => rw [h] at he; cases he

end Dereference

/-! ### Places of sites -/

theorem Follows.exists_on (h : Follows table lines sites) {s : Site} (hs : s ∈ sites) :
    ∃ earlier, s.On table lines earlier := by
  obtain ⟨earlier, later, he⟩ := List.append_of_mem hs
  exact ⟨earlier, h earlier s later he⟩

theorem Follows.concat (h : Follows table lines sites) {s : Site} (hs : s.On table lines sites) :
    Follows table lines (sites ++ [s]) := by
  intro earlier t later he
  rcases List.eq_nil_or_concat later with rfl | ⟨later, u, rfl⟩
  · obtain ⟨rfl, ht⟩ := List.append_inj' he rfl
    rw [← List.singleton_inj.mp ht]
    exact hs
  · rw [List.concat_eq_append, ← List.cons_append, ← List.append_assoc] at he
    exact h earlier t later (List.append_inj' he rfl).1

/-- The new lines of sites are inert. -/
theorem Follows.inert (h : Follows table lines sites) (hregular : ∀ line ∈ lines, Regular table line)
    {tail : Text} (htail : '@' ∉ tail) :
    ∀ e ∈ allEdits ('@' :: '_' :: tail) sites, ∀ t ∈ e.2, Inert t := by
  intro e he t ht
  obtain ⟨s, hs, he⟩ := List.mem_flatMap.mp he
  obtain ⟨earlier, hon⟩ := h.exists_on hs
  simp only [Site.edits, List.mem_cons, List.not_mem_nil, or_false] at he
  rcases he with rfl | rfl | rfl
  · obtain ⟨line, hline, -, hvalue, hindent⟩ := hon.load
    obtain rfl := List.mem_singleton.mp ht
    refine inert_cast ?_ (Line.isValue_of_assigned? hvalue)
      ((hregular line (List.mem_of_getElem? hline)).silent_value hvalue) htail
    rw [hindent]
    exact fun c hc => List.mem_takeWhile_imp hc
  · cases ht
  · obtain ⟨line, -, hline, hbranch, -⟩ := hon.branch
    obtain rfl := List.mem_singleton.mp ht
    have hlabels := (hregular line (List.mem_of_getElem? hline)).silent_labels hbranch
    refine inert_jump ?_ ?_
    · rw [indent_of_branch? hbranch]
      exact fun c hc => List.mem_takeWhile_imp hc
    · rw [Site.success]
      rcases s.fork.ifNotNull_cases s.comparison with he | he
      · exact he ▸ hlabels.1
      · exact he ▸ hlabels.2

/-- A place that changes has the line of a site. -/
theorem Follows.kind_of_edit (h : Follows table lines sites)
    (hregular : ∀ line ∈ lines, Regular table line) {i : Nat} {new : List Text}
    (he : (i, new) ∈ allEdits singleton sites) {line : Text} (hline : lines[i]? = some line)
    {k : Kind} (hk : k.reads table line) :
    (k = .load ∧ i ∈ sites.map Site.load) ∨ (k = .check ∧ i ∈ sites.map Site.check) ∨
      (k = .branch ∧ i ∈ sites.map Site.branch) := by
  obtain ⟨s, hs, he⟩ := List.mem_flatMap.mp he
  obtain ⟨earlier, hon⟩ := h.exists_on hs
  have hsingle := (hregular line (List.mem_of_getElem? hline)).single k
  simp only [Site.edits, List.mem_cons, Prod.mk.injEq, List.not_mem_nil, or_false] at he
  rcases he with ⟨rfl, -⟩ | ⟨rfl, -⟩ | ⟨rfl, -⟩
  · obtain ⟨line', hline', hload, -⟩ := hon.load
    obtain rfl := Option.some.inj (hline.symm.trans hline')
    exact .inl ⟨hsingle .load hk hload, List.mem_map_of_mem hs⟩
  · obtain ⟨line', -, hline', hcheck, -⟩ := hon.check
    obtain rfl := Option.some.inj (hline.symm.trans hline')
    exact .inr (.inl ⟨hsingle .check hk (by rw [Kind.reads, hcheck]; rfl), List.mem_map_of_mem hs⟩)
  · obtain ⟨line', -, hline', hbranch, -⟩ := hon.branch
    obtain rfl := Option.some.inj (hline.symm.trans hline')
    exact .inr (.inr ⟨hsingle .branch hk (by rw [Kind.reads, hbranch]; rfl), List.mem_map_of_mem hs⟩)

/-- A place that does not change belongs to no site. -/
theorem notMem_of_lookup {i : Nat} (h : (allEdits singleton sites).lookup i = none) :
    i ∉ sites.map Site.load ∧ i ∉ sites.map Site.check ∧ i ∉ sites.map Site.branch := by
  have hnot : ∀ s ∈ sites, ∀ e ∈ s.edits singleton, i ≠ e.1 := fun s hs e he =>
    bne_iff_ne.mp (List.lookup_eq_none_iff.mp h e (List.mem_flatMap.mpr ⟨s, hs, he⟩))
  simp only [List.mem_map, not_exists, not_and]
  exact ⟨fun s hs he => hnot s hs _ (.head _) he.symm, fun s hs he => hnot s hs _ (.tail _ (.head _)) he.symm,
    fun s hs he => hnot s hs _ (.tail _ (.tail _ (.head _))) he.symm⟩

theorem allEdits_concat (s : Site) :
    allEdits singleton (sites ++ [s]) = allEdits singleton sites ++ s.edits singleton := by
  rw [allEdits, List.flatMap_append, List.flatMap_singleton]
  rfl

private theorem edited_concat_of_ne {s : Site} {p : Text × Nat} (hload : p.2 ≠ s.load) (hcheck : p.2 ≠ s.check)
    (hbranch : p.2 ≠ s.branch) :
    edited (allEdits singleton (sites ++ [s])) p =
      edited (allEdits singleton sites) p := by
  have hnone : (s.edits singleton).lookup p.2 = none := by
    rw [List.lookup_eq_none_iff]
    simp [Site.edits, hload, hcheck, hbranch]
  rw [edited, edited, allEdits_concat, List.lookup_append, hnone, Option.or_none]

private theorem edited_concat_of_lookup {s : Site} {line : Text} {i : Nat} {new : List Text}
    (h : (allEdits singleton sites).lookup i = none)
    (hnew : (s.edits singleton).lookup i = some new) :
    edited (allEdits singleton (sites ++ [s])) (line, i) = new := by
  rw [edited, allEdits_concat, List.lookup_append, h, hnew]
  rfl

namespace Dereference

/-- The site of a dereference that was found, given the places of its lines. -/
def site (d : Dereference) (i j k : Nat) : Site where
  load := i
  check := j
  branch := k
  indent := d.load.found.takeWhile Text.isBlank
  value := d.value
  comparison := d.check.reading
  fork := d.branch.reading

variable {tail : Text}

/-- The lines of a dereference are changed at its site, and all others are as they were. -/
theorem lines_eq_afterSites {d : Dereference} {before between between' rest : List (Text × Nat)} {i j k : Nat}
    (hplaces : lines.zipIdx = before ++ (d.load.found, i) :: (between ++ (d.check.found, j) ::
      (between' ++ (d.branch.found, k) :: rest)))
    (hi : (allEdits singleton sites).lookup i = none)
    (hj : (allEdits singleton sites).lookup j = none)
    (hk : (allEdits singleton sites).lookup k = none)
    (hload : d.load.before = before.flatMap (edited (allEdits singleton sites)))
    (hcheck : d.check.before = between.flatMap (edited (allEdits singleton sites)))
    (hbranch : d.branch.before = between'.flatMap (edited (allEdits singleton sites)))
    (hrest : d.branch.after = rest.flatMap (edited (allEdits singleton sites))) :
    d.lines singleton = afterSites singleton lines (sites ++ [d.site i j k]) := by
  obtain ⟨-, ⟨hij, hjk⟩, hbefore, hbetween, hbetween', hafter⟩ := order_of_zipIdx_eq hplaces
  have hsame : ∀ {l : List (Text × Nat)}, (∀ p ∈ l, p.2 ≠ i ∧ p.2 ≠ j ∧ p.2 ≠ k) →
      l.flatMap (edited (allEdits singleton (sites ++ [d.site i j k]))) =
        l.flatMap (edited (allEdits singleton sites)) := fun hne =>
    List.flatMap_congr fun p hp => edited_concat_of_ne (hne p hp).1 (hne p hp).2.1 (hne p hp).2.2
  have hcast : ((d.site i j k).edits singleton).lookup i = some [d.castLine singleton] :=
    List.lookup_cons_self
  have hgone : ((d.site i j k).edits singleton).lookup j = some [] := by
    have hne : (j == (d.site i j k).load) = false := beq_eq_false_iff_ne.mpr hij.ne'
    rw [Site.edits, List.lookup_cons, hne]
    exact List.lookup_cons_self
  have hjump : ((d.site i j k).edits singleton).lookup k = some [d.jumpLine] := by
    have hne : (k == (d.site i j k).load) = false := beq_eq_false_iff_ne.mpr (hij.trans hjk).ne'
    have hne' : (k == (d.site i j k).check) = false := beq_eq_false_iff_ne.mpr hjk.ne'
    rw [Site.edits, List.lookup_cons, hne]
    dsimp only
    rw [List.lookup_cons, hne']
    exact List.lookup_cons_self
  rw [afterSites, hplaces]
  simp only [List.flatMap_append, List.flatMap_cons]
  rw [edited_concat_of_lookup hi hcast, edited_concat_of_lookup hj hgone, edited_concat_of_lookup hk hjump,
    hsame fun p hp => by have := hbefore p hp; omega, hsame fun p hp => by have := hbetween p hp; omega,
    hsame fun p hp => by have := hbetween' p hp; omega, hsame fun p hp => by have := hafter p hp; omega,
    ← hload, ← hcheck, ← hbranch, ← hrest, Dereference.lines]
  rfl

/-- **One step**: what is found first is a site, and the lines change accordingly. -/
theorem exists_site (htail : '@' ∉ tail) (hregular : ∀ line ∈ lines, Regular table line)
    (hsites : Follows table lines sites) {d : Dereference}
    (hfind : find table function (afterSites ('@' :: '_' :: tail) lines sites) = .ok (some d)) :
    ∃ s, s.On table lines sites ∧
      d.lines ('@' :: '_' :: tail) = afterSites ('@' :: '_' :: tail) lines (sites ++ [s]) ∧
      d.failure = s.failure := by
  obtain ⟨hload, hvalue, hcheck, hbranch⟩ := of_find hfind
  have hinert := hsites.inert hregular htail
  -- the three lines, by their places in the block
  obtain ⟨before, i, after, hplaces, hi, hloadRead, hl, hr, hearlier⟩ :=
    exists_of_first? length_edited_le (fun e he t ht => load?_eq_none_of_silent (hinert e he t ht).silent) hload
  rw [hr] at hcheck
  obtain ⟨between, j, after', hplaces', hj, hcheckRead, hl', hr', hearlier'⟩ :=
    exists_of_first? length_edited_le
      (fun e he t ht => by rw [(hinert e he t ht).check]; rfl) hcheck
  rw [hr'] at hbranch
  obtain ⟨between', k, rest, hplaces'', hk, hbranchRead, hl'', hr'', hearlier''⟩ :=
    exists_of_first? length_edited_le
      (fun e he t ht => by rw [(hinert e he t ht).branch]; rfl) hbranch
  subst hplaces' hplaces''
  have hplaces' : lines.zipIdx = (before ++ (d.load.found, i) :: between) ++ (d.check.found, j) ::
      (between' ++ (d.branch.found, k) :: rest) := by
    rw [hplaces]
    simp
  obtain ⟨⟨hlineLoad, hlineCheck, hlineBranch⟩, ⟨hij, hjk⟩, -⟩ := order_of_zipIdx_eq hplaces
  obtain ⟨hcheckRead, hcheckValue⟩ := Option.filter_eq_some_iff.mp hcheckRead
  obtain ⟨hbranchRead, hbranchFlag⟩ := Option.filter_eq_some_iff.mp hbranchRead
  refine ⟨d.site i j k, ⟨⟨_, hlineLoad, by rw [Kind.reads, hloadRead]; rfl, hvalue, rfl⟩, ?_,
    ⟨_, hij, hlineCheck, hcheckRead, beq_iff_eq.mp hcheckValue⟩, ?_,
    ⟨_, hjk, hlineBranch, hbranchRead, beq_iff_eq.mp hbranchFlag⟩, ?_⟩, ?_, rfl⟩
  · refine ⟨(notMem_of_lookup hi).1, fun m line hm hline hreads => ?_⟩
    obtain ⟨new, hnew⟩ := hearlier _ ((mem_of_zipIdx_eq hplaces hline).1 hm) hreads
    rcases hsites.kind_of_edit hregular hnew hline hreads with ⟨-, hmem⟩ | ⟨hk, -⟩ | ⟨hk, -⟩
    · exact hmem
    · cases hk
    · cases hk
  · refine ⟨(notMem_of_lookup hj).2.1, fun m line c hlow hhigh hline hread (hc : c.value = d.value) => ?_⟩
    obtain ⟨new, hnew⟩ := hearlier' _ (mem_between_of_zipIdx_eq hplaces hline hlow hhigh)
      (by rw [hread, Option.filter_some, if_pos (beq_iff_eq.mpr hc)]; rfl)
    rcases hsites.kind_of_edit hregular hnew hline (k := .check) (by rw [Kind.reads, hread]; rfl)
      with ⟨hk, -⟩ | ⟨-, hmem⟩ | ⟨hk, -⟩
    · cases hk
    · exact hmem
    · cases hk
  · refine ⟨(notMem_of_lookup hk).2.2, fun m line b hlow hhigh hline hread
      (hb : b.flag = d.check.reading.flag) => ?_⟩
    obtain ⟨new, hnew⟩ := hearlier'' _ (mem_between_of_zipIdx_eq hplaces' hline hlow hhigh)
      (by rw [hread, Option.filter_some, if_pos (beq_iff_eq.mpr hb)]; rfl)
    rcases hsites.kind_of_edit hregular hnew hline (k := .branch) (by rw [Kind.reads, hread]; rfl)
      with ⟨hk, -⟩ | ⟨hk, -⟩ | ⟨-, hmem⟩
    · cases hk
    · cases hk
    · exact hmem
  · exact lines_eq_afterSites hplaces hi hj hk hl hl' hl'' hr''

/-- A run from a block in which some sites have been dealt with already. -/
theorem exists_more_sites (htail : '@' ∉ tail) (hregular : ∀ line ∈ lines, Regular table line)
    (hsites : Follows table lines sites) {out failures : List Text}
    (h : all table function ('@' :: '_' :: tail) (afterSites ('@' :: '_' :: tail) lines sites) =
      .ok (out, failures)) :
    ∃ more, Follows table lines (sites ++ more) ∧
      out = afterSites ('@' :: '_' :: tail) lines (sites ++ more) ∧ failures = more.map Site.failure ∧
      ∀ t ∈ out, load? table t = none := by
  -- by the number of lines, which each step makes smaller
  induction hn : (afterSites ('@' :: '_' :: tail) lines sites).length using Nat.strongRecOn
    generalizing sites out failures with
  | ind n ih =>
    rw [all] at h
    split at h
    · cases h
    · next hfind =>
      obtain ⟨rfl, rfl⟩ := Prod.mk.inj (Except.ok.inj h)
      refine ⟨[], by rwa [List.append_nil], by rw [List.append_nil], rfl, ?_⟩
      unfold find at hfind
      split at hfind
      · next hnone => exact Cut.first?_eq_none_iff.mp hnone
      · next load hload =>
        cases hcomplete : complete function load with
        | error e => rw [hcomplete] at hfind; cases hfind
        | ok d => rw [hcomplete] at hfind; cases hfind
    · next d hfind =>
      obtain ⟨s, hs, hlines, hfailure⟩ := exists_site htail hregular hsites hfind
      have hlength := length_lines ('@' :: '_' :: tail) hfind
      rw [hlines] at h hlength
      cases hall : all table function ('@' :: '_' :: tail)
          (afterSites ('@' :: '_' :: tail) lines (sites ++ [s])) with
      | error e => rw [hall] at h; cases h
      | ok result =>
        rw [hall] at h
        obtain ⟨rfl, rfl⟩ := Prod.mk.inj (Except.ok.inj h)
        obtain ⟨more, hmore, hout, hfailures, hnone⟩ :=
          ih _ (by omega) (hsites.concat hs) hall rfl
        rw [List.append_assoc, List.singleton_append] at hmore hout
        exact ⟨s :: more, hmore, hout, by rw [List.map_cons, hfailures, hfailure], hnone⟩

/-- **All loads of a block are sites of it, and the lines change accordingly.** -/
theorem exists_sites (htail : '@' ∉ tail) (hregular : ∀ line ∈ lines, Regular table line)
    {out failures : List Text} (h : all table function ('@' :: '_' :: tail) lines = .ok (out, failures)) :
    ∃ sites, Follows table lines sites ∧
      (∀ (i : Nat) (line : Text), lines[i]? = some line → Kind.load.reads table line →
        i ∈ sites.map Site.load) ∧
      out = afterSites ('@' :: '_' :: tail) lines sites ∧ failures = sites.map Site.failure := by
  have hstart : afterSites ('@' :: '_' :: tail) lines [] = lines := by
    have hsame : edited [] = fun p : Text × Nat => [p.1] := rfl
    rw [afterSites, allEdits, List.flatMap_nil, hsame, ← List.map_eq_flatMap, List.zipIdx_map_fst]
  have hnil : Follows table lines [] := fun earlier s later he => by cases earlier <;> cases he
  rw [← hstart] at h
  obtain ⟨sites, hsites, hout, hfailures, hnone⟩ := exists_more_sites htail hregular hnil h
  rw [List.nil_append] at hsites hout
  refine ⟨sites, hsites, fun i line hline hload => ?_, hout, hfailures⟩
  cases hlookup : (allEdits ('@' :: '_' :: tail) sites).lookup i with
  | some new =>
    rcases hsites.kind_of_edit hregular (List.mem_of_lookup hlookup) hline hload with ⟨-, hmem⟩ | ⟨hk, -⟩ | ⟨hk, -⟩
    · exact hmem
    · cases hk
    · cases hk
  | none =>
    -- the load would be left in the end
    have hmem : line ∈ out := by
      rw [hout]
      refine List.mem_flatMap.mpr ⟨(line, i), List.mem_zipIdx_iff_getElem?.mpr hline, ?_⟩
      rw [edited, hlookup]
      exact List.mem_singleton.mpr rfl
    rw [Kind.reads, hnone line hmem] at hload
    cases hload

end Dereference

/-- No two sites have a load in common. -/
theorem Follows.nodup_load (h : Follows table lines sites) : (sites.map Site.load).Nodup := by
  induction sites using List.reverseRecOn with
  | nil => exact List.nodup_nil
  | append_singleton sites s ih =>
    have hinit : Follows table lines sites := fun earlier t later he =>
      h earlier t (later ++ [s]) (by rw [he]; simp)
    rw [List.map_append, List.map_singleton, ← List.concat_eq_append]
    exact (ih hinit).concat (h sites s [] rfl).load_first.1

theorem countP_zipIdx (lines : List Text) (q : Text → Bool) :
    lines.zipIdx.countP (fun p => q p.1) = lines.countP q := by
  conv_rhs => rw [← List.zipIdx_map_fst 0 lines]
  exact List.countP_map.symm

/-- There are as many sites as loads. -/
theorem Follows.length_eq (h : Follows table lines sites)
    (hall : ∀ (i : Nat) (line : Text), lines[i]? = some line → Kind.load.reads table line →
      i ∈ sites.map Site.load) : sites.length = lines.countP fun line => Kind.load.reads table line := by
  have hplaces : (sites.map Site.load).Perm
      ((lines.zipIdx.filter fun p => Kind.load.reads table p.1).map Prod.snd) := by
    have hnodup : (lines.zipIdx.map Prod.snd).Nodup := by
      rw [List.zipIdx_map_snd]
      exact List.nodup_range'
    rw [List.perm_ext_iff_of_nodup h.nodup_load (hnodup.sublist (List.filter_sublist.map _))]
    intro i
    rw [List.mem_map (f := Prod.snd)]
    constructor
    · intro hi
      obtain ⟨s, hs, rfl⟩ := List.mem_map.mp hi
      obtain ⟨earlier, hon⟩ := h.exists_on hs
      obtain ⟨line, hline, hload, -⟩ := hon.load
      exact ⟨(line, s.load), List.mem_filter.mpr ⟨List.mem_zipIdx_iff_getElem?.mpr hline, hload⟩, rfl⟩
    · rintro ⟨⟨line, i⟩, hp, rfl⟩
      obtain ⟨hmem, hload⟩ := List.mem_filter.mp hp
      exact hall i line (List.mem_zipIdx_iff_getElem?.mp hmem) hload
  calc sites.length = (sites.map Site.load).length := by rw [List.length_map]
    _ = (lines.zipIdx.filter fun p => Kind.load.reads table p.1).length := by
      rw [hplaces.length_eq, List.length_map]
    _ = lines.countP fun line => Kind.load.reads table line := by
      rw [← countP_zipIdx, List.countP_eq_length_filter]

end Freestanding
