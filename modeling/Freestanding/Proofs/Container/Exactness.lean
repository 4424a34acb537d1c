import Freestanding.Proofs.Collector.Stripping
import Freestanding.Proofs.Container.Layouts
import Freestanding.Proofs.Container.Rewriting
import Freestanding.Proofs.Listing.Passes

/-!
# What a run does to a listing

All that a run changes is described here on the listing as it was: the bodies line by line, the layouts
symbol by symbol, and what is added for the new code.  Nothing is left that a second run would change, so
that all it may do is to read layouts of container types that only the new code mentions.

The lines have to be regular.  An instruction in a comment behind another one would be counted or not
depending on the other one, and a name with the text of an idiom would be taken for that idiom.

## Main definitions

* `Container.Clear` — a line with none of the instructions that are changed on sight.
* `Container.Lowered` — what a run does to a listing.

## Main results

* `Container.Rewrites.clear` — nothing is left in a body.
* `Container.lower_of_clear`, `Container.lower_eq_self_iff_of_clear` — a run over a listing in which
  nothing is left.
* `Container.lower_exact` — **a run changes what it should and nothing else.**
* `Container.quotedLength_cut` — a length whose name has a closing parenthesis is not kept.
-/

namespace Freestanding

open Idiom

/-! ### Parts of lines -/

namespace Idiom

variable {line : Text}

/-- The labels of a branch are parts of its line. -/
theorem labels_of_branch? {b : Branch} (h : branch? line = some b) : b.yes <:+: line ∧ b.no <:+: line := by
  unfold branch? at h
  simp only [Option.bind_eq_bind, Option.bind_eq_some_iff] at h
  obtain ⟨t, ht, ⟨flag, u⟩, hflag, v, hv, ⟨yes, w⟩, hyes, x, hx, ⟨no, y⟩, hno, he⟩ := h
  obtain rfl := Option.some.inj he
  have hstart : t <:+ line := by
    refine List.IsSuffix.trans ?_ (List.dropWhile_suffix Text.isBlank)
    exact ⟨_, (Text.stripPrefix?_eq_some_iff.mp ht).symm⟩
  have hliteral : ∀ {lit s r : Text}, Text.stripPrefix? s lit = some r → r <:+ s := fun hs =>
    ⟨_, (Text.stripPrefix?_eq_some_iff.mp hs).symm⟩
  have htoken : ∀ {s token r : Text}, Token.named? '%' s = some (token, r) → token <+: s ∧ r <:+ s := by
    intro s token r hs
    have happ := (Token.append_eq_of_read? (Option.filter_eq_some_iff.mp hs).1).1
    exact ⟨⟨r, happ⟩, ⟨token, happ⟩⟩
  have hyesLine : v <:+ line := (hliteral hv).trans ((htoken hflag).2.trans hstart)
  have hnoLine : x <:+ line := (hliteral hx).trans ((htoken hyes).2.trans hyesLine)
  exact ⟨(htoken hyes).1.isInfix.trans hyesLine.isInfix, (htoken hno).1.isInfix.trans hnoLine.isInfix⟩

theorem newline_notMem_castText (hline : '\n' ∉ line) {value singleton : Text}
    (hvalue : Line.assigned? line = some value) (hsingleton : '\n' ∉ singleton) :
    '\n' ∉ castText (line.takeWhile Text.isBlank) value singleton := by
  have hindent : '\n' ∉ line.takeWhile Text.isBlank := fun hmem =>
    hline ((List.takeWhile_prefix _).subset hmem)
  have hvalue : '\n' ∉ value := fun hmem => hline ((Line.value_of_assigned? hvalue).subset hmem)
  unfold castText
  (repeat' apply List.not_mem_append) <;> first | assumption | decide

theorem newline_notMem_jumpText (hline : '\n' ∉ line) {b : Branch} (hb : branch? line = some b)
    (check : NullCheck) : '\n' ∉ b.jumpText (b.ifNotNull check) := by
  have hindent : '\n' ∉ b.indent := by
    rw [indent_of_branch? hb]
    exact fun hmem => hline ((List.takeWhile_prefix _).subset hmem)
  have hlabel : '\n' ∉ b.ifNotNull check := by
    obtain ⟨hyes, hno⟩ := labels_of_branch? hb
    rcases b.ifNotNull_cases check with he | he
    · exact he ▸ fun hmem => hline (hyes.subset hmem)
    · exact he ▸ fun hmem => hline (hno.subset hmem)
  unfold Branch.jumpText
  (repeat' apply List.not_mem_append) <;> first | assumption | decide

end Idiom

namespace Creation

variable {layouts : Std.ExtTreeMap Text Layout} {line operands : Text} {c : Creation}

private theorem Of.newline_notMem_count (h : c.Of layouts line operands) (hcall : Allocates line operands)
    (hline : '\n' ∉ line) : '\n' ∉ c.count := by
  obtain ⟨type, length, hpieces, hcount⟩ := h.exists_length
  obtain ⟨before, callee, after, rfl, -⟩ := hcall
  have hlength : length <:+: operands := Text.infix_of_mem_splitOnP (by
    rw [List.splitOn] at hpieces
    rw [hpieces]
    simp)
  intro hmem
  have hmem := (hcount.trans hlength).subset hmem
  exact hline (by simp [hmem])

private theorem newline_notMem_derived {token : Text} (h : '\n' ∉ token) (suffix : Text) (hsuffix : '\n' ∉ suffix) :
    '\n' ∉ Name.derived token suffix := by
  have hbare : '\n' ∉ Name.bare token := fun hmem => h ((Name.bare_isInfix token).subset hmem)
  unfold Name.derived Name.value Name.write
  split
  · simp [hbare, hsuffix]
  · simp [hbare, hsuffix]

private theorem newline_notMem_decimal (n : Nat) : '\n' ∉ Text.decimal n := fun hmem =>
  absurd (Nat.isDigit_of_mem_toDigits (by decide) (by decide) hmem) (by decide)

/-- **The instructions that create a container are single lines.** -/
theorem Of.newline_notMem_lines (h : c.Of layouts line operands) (hcall : Allocates line operands)
    (hline : '\n' ∉ line) : ∀ t ∈ c.lines, '\n' ∉ t := by
  have hindent : '\n' ∉ c.indent := by
    rw [h.indent]
    exact fun hmem => hline ((List.takeWhile_prefix _).subset hmem)
  have hcount := h.newline_notMem_count hcall hline
  have hresult : '\n' ∉ c.result := fun hmem => hline ((Line.value_of_assigned? h.result).subset hmem)
  have hbytes := newline_notMem_derived hresult "bytes" (by decide)
  have hdata := newline_notMem_derived hresult "data" (by decide)
  have hslot := newline_notMem_derived hresult "data_slot" (by decide)
  have hsize := newline_notMem_decimal c.slotSize
  intro t ht
  unfold lines at ht
  obtain ⟨instruction, hinstruction, rfl⟩ := List.mem_map.mp ht
  refine List.not_mem_append hindent ?_
  simp only [List.mem_cons, List.not_mem_nil, or_false] at hinstruction
  rcases hinstruction with rfl | rfl | rfl | rfl | rfl | rfl
  case inr.inr.inl => split <;> (repeat' apply List.not_mem_append) <;> first | assumption | decide
  all_goals (repeat' apply List.not_mem_append) <;> first | assumption | decide

end Creation

namespace Container

variable {c : Context}

/-! ### Nothing is left -/

/-- A line with none of the instructions that are changed on sight. -/
structure Clear (table : AddressTable) (line : Text) : Prop where
  /-- No load of an empty instance. -/
  load : Dereference.load? table line = none
  /-- No allocation. -/
  allocation : allocation? line = none
  /-- No marker. -/
  marker : isMarker line = false

theorem clear_of_silent {table : AddressTable} {line : Text} (h : Silent line) : Clear table line :=
  ⟨load?_eq_none_of_silent h, h.allocation?_eq_none, h.isMarker_eq_false⟩

variable {sites : List Site} {lines : List Text}

private theorem newline_notMem_castLine {s : Site} {earlier : List Site} (hs : s.On c.table lines earlier)
    (hlines : ∀ line ∈ lines, '\n' ∉ line) (hc : c.Proper) : '\n' ∉ s.castLine c.singleton := by
  obtain ⟨line, hline, -, hvalue, hindent⟩ := hs.load
  rw [Site.castLine, hindent]
  exact newline_notMem_castText (hlines line (List.mem_of_getElem? hline)) hvalue hc.newline

private theorem newline_notMem_jumpLine {s : Site} {earlier : List Site} (hs : s.On c.table lines earlier)
    (hlines : ∀ line ∈ lines, '\n' ∉ line) : '\n' ∉ s.jumpLine := by
  obtain ⟨line, -, hline, hbranch, -⟩ := hs.branch
  exact newline_notMem_jumpText (hlines line (List.mem_of_getElem? hline)) hbranch s.comparison

/-- What becomes of a line is made of single lines, and none of them has to be changed again. -/
theorem Becomes.clear {line : Text} {i : Nat} {news : List Text} (h : Becomes c sites (line, i) news)
    (hline : line ∈ lines) (hsites : Follows c.table lines sites)
    (hregular : ∀ line ∈ lines, Regular c.table line) (hlines : ∀ line ∈ lines, '\n' ∉ line)
    (hc : c.Proper) : ∀ t ∈ news, Clear c.table t ∧ '\n' ∉ t := by
  have hinert : ∀ s ∈ sites, ∀ e ∈ s.edits c.singleton, ∀ t ∈ e.2, Clear c.table t := by
    intro s hs e he t ht
    obtain ⟨tail, htext, htail⟩ := hc.symbol
    rw [htext] at he
    exact clear_of_silent
      (hsites.inert hregular htail e (List.mem_flatMap.mpr ⟨s, hs, he⟩) t ht).silent
  intro t ht
  cases h with
  | @cast _ s hs =>
    obtain ⟨earlier, hon⟩ := hsites.exists_on hs
    refine ⟨hinert s hs (s.load, [s.castLine c.singleton]) (.head _) t ht, ?_⟩
    rw [List.mem_singleton.mp ht]
    exact newline_notMem_castLine hon hlines hc
  | checked => cases ht
  | @jump _ s hs =>
    obtain ⟨earlier, hon⟩ := hsites.exists_on hs
    refine ⟨hinert s hs (s.branch, [s.jumpLine]) (.tail _ (.tail _ (.head _))) t ht, ?_⟩
    rw [List.mem_singleton.mp ht]
    exact newline_notMem_jumpLine hon hlines
  | created hi hoperands hcall hcreation =>
    exact ⟨clear_of_silent (hcreation.silent_lines (hregular line hline) hoperands t ht),
      hcreation.newline_notMem_lines hcall (hlines line hline) t ht⟩
  | unmarked => cases ht
  | same hi hload hallocation hmarker =>
    rw [List.mem_singleton.mp ht]
    exact ⟨⟨hload, hallocation, hmarker⟩, hlines line hline⟩

/-- **No load, allocation or marker is left in a body.** -/
theorem Rewrites.clear {body new : Text} {changes : List BlockChange} (h : Rewrites c body changes new)
    (hregular : ∀ line ∈ body.lines, Regular c.table line) (hc : c.Proper) :
    ∀ line ∈ new.lines, Clear c.table line := by
  have hchange : ∀ change ∈ changes, ∀ t ∈ change.lines, Clear c.table t ∧ '\n' ∉ t := by
    intro change hchange t ht
    obtain ⟨hfollows, -, news, hnews, hlines⟩ := h.holds change hchange
    have hbody : ∀ line ∈ change.block.lines, line ∈ body.lines := by
      intro line hline
      rw [← Block.flatMap_lines_split, ← h.blocks]
      exact List.mem_flatMap.mpr ⟨change.block, List.mem_map_of_mem hchange, hline⟩
    rw [hlines] at ht
    obtain ⟨new, hnew, ht⟩ := List.mem_flatten.mp ht
    obtain ⟨⟨line, i⟩, hp, hbecomes⟩ := hnews.exists_of_mem hnew
    have hline := List.mem_of_getElem? (List.mem_zipIdx_iff_getElem?.mp hp)
    exact hbecomes.clear hline hfollows (fun line hline => hregular line (hbody line hline))
      (fun line hline => Text.notMem_of_mem_lines (hbody line hline)) hc t ht
  have hkept : ∀ t ∈ changes.flatMap fun change =>
      if Block.isTarget (failures changes) (Block.split body) change.block then [] else change.lines,
      Clear c.table t ∧ '\n' ∉ t := by
    intro t ht
    obtain ⟨change, hmem, ht⟩ := List.mem_flatMap.mp ht
    split at ht
    · cases ht
    · exact hchange change hmem t ht
  -- a body without lines is one empty line
  intro line hline
  rw [h.lines] at hline
  rcases Text.mem_lines_unlines (fun t ht => (hkept t ht).2) hline with hmem | rfl
  · exact (hkept line hmem).1
  · exact clear_of_silent .nil

/-! ### A second run -/

private theorem lowerBlock_of_clear {b : Block} (h : ∀ line ∈ b.lines, Clear c.table line) :
    lowerBlock c b = .ok (b, [], {}) := by
  have hall : Dereference.all c.table c.function c.singleton b.lines = .ok (b.lines, []) :=
    Dereference.all_eq_of_find (Dereference.find_eq_ok_none_iff.mpr fun line hline => (h line hline).load) _
  have hlowered : b.lines.mapM (lowerLine c) = .ok (b.lines.map fun line => ([line], none)) := by
    rw [Except.mapM_eq_ok_iff, List.forall₂_map_right_iff, List.forall₂_same]
    intro line hline
    rw [lowerLine, (h line hline).allocation]
  have hmarkers : b.lines.filter (!isMarker ·) = b.lines :=
    List.filter_eq_self.mpr fun line hline => by rw [(h line hline).marker]; rfl
  have htexts : (b.lines.map fun line => (([line], none) : List Text × Option Creation)).flatMap Prod.fst =
      b.lines := by
    rw [List.flatMap_map]
    exact List.flatMap_singleton' _
  have hcreations : (b.lines.map fun line => (([line], none) : List Text × Option Creation)).filterMap
      Prod.snd = [] := by
    rw [List.filterMap_map, List.filterMap_eq_nil_iff]
    exact fun _ _ => rfl
  rw [lowerBlock, hall]
  dsimp only [bind, Except.bind]
  rw [hlowered]
  dsimp only
  rw [htexts, hcreations, hmarkers, Nat.sub_self]
  rfl

/-- A body in which nothing is left stays as it is. -/
theorem lowerBody_of_clear {body : Text} (h : ∀ line ∈ body.lines, Clear c.table line) :
    lowerBody c body = .ok (body, {}) := by
  have hblocks : (Block.split body).mapM (lowerBlock c) =
      .ok ((Block.split body).map fun b => (b, [], {})) := by
    rw [Except.mapM_eq_ok_iff, List.forall₂_map_right_iff, List.forall₂_same]
    intro b hb
    refine lowerBlock_of_clear fun line hline => h line ?_
    rw [← Block.flatMap_lines_split]
    exact List.mem_flatMap.mpr ⟨b, hb, hline⟩
  have hlabels : ((Block.split body).map fun b => (b, ([] : List Text), ({} : Tally))).flatMap (·.2.1) = [] := by
    rw [List.flatMap_map]
    exact List.flatMap_eq_nil_iff.mpr fun _ _ => rfl
  have hsame : ((Block.split body).map fun b => (b, ([] : List Text), ({} : Tally))).map (·.1) =
      Block.split body := by
    rw [List.map_map]
    exact List.map_id' _
  have htally : ∀ blocks : List Block,
      ((blocks.map fun b => (b, ([] : List Text), ({} : Tally))).map (·.2.2)).foldl Tally.add {} = {} := by
    intro blocks
    induction blocks with
    | nil => rfl
    | cons b blocks ih => exact ih
  rw [lowerBody, hblocks]
  dsimp only [bind, Except.bind]
  rw [hlabels, hsame, htally, blankLabels]
  dsimp only
  rw [Block.join_split]
  rfl

private theorem lowerBodies_of_clear {bodies : List Text}
    (h : ∀ body ∈ bodies, ∀ line ∈ Text.lines body, Clear c.table line) :
    lowerBodies c bodies = (bodies, .ok {}) := by
  induction bodies with
  | nil => rfl
  | cons body bodies ih =>
    obtain ⟨hbody, hrest⟩ := List.forall_mem_cons.mp h
    rw [lowerBodies, lowerBody_of_clear hbody, ih hrest]
    rfl

/-- A listing in which nothing is left: all that is done is to read layouts. -/
theorem lower_of_clear (heap : HeapImage) (function stem : Text) {l : Listing}
    (h : ∀ body ∈ l.bodies, ∀ line ∈ Text.lines body, Clear l.addresses line) :
    (lower heap function stem l).value =
      ({ l with layouts := (resolve heap function l.addresses (mentioned l) l.layouts).value.1 },
        (resolve heap function l.addresses (mentioned l) l.layouts).value.2.map fun _ => {}) := by
  rw [lower, Logged.value_bind]
  generalize (resolve heap function l.addresses (mentioned l) l.layouts).value = resolved
  obtain ⟨layouts, result⟩ := resolved
  cases result with
  | error e => rfl
  | ok u =>
    dsimp only
    rw [lowerBodies_of_clear (c := ⟨function, l.addresses, layouts, singletonSymbol stem⟩) h]
    rfl

/-- A listing in which nothing is left stays as it is if and only if all layouts are known. -/
theorem lower_eq_self_iff_of_clear {heap : HeapImage} {function stem : Text} {l : Listing}
    (h : ∀ body ∈ l.bodies, ∀ line ∈ Text.lines body, Clear l.addresses line) :
    (lower heap function stem l).value = (l, .ok {}) ↔ ∀ s ∈ mentioned l, s ∈ l.layouts := by
  have hresolved : (resolve heap function l.addresses (mentioned l) l.layouts).value = (l.layouts, .ok ()) ↔
      ∀ s ∈ mentioned l, s ∈ l.layouts := by
    rw [resolve_eq_self_iff]
    exact forall_congr' fun s => forall_congr' fun hs => forall_prop_of_true (isContainer_of_mem_mentioned hs)
  rw [lower_of_clear heap function stem h, ← hresolved]
  generalize (resolve heap function l.addresses (mentioned l) l.layouts).value = resolved
  obtain ⟨layouts, result⟩ := resolved
  constructor
  · intro hsame
    obtain ⟨hlisting, hresult⟩ := Prod.mk.inj hsame
    have hlayouts : layouts = l.layouts := congrArg Listing.layouts hlisting
    cases result with
    | error e => cases hresult
    | ok u => rw [hlayouts]
  · intro hsame
    obtain ⟨rfl, rfl⟩ := Prod.mk.inj hsame
    rfl

/-! ### Runs -/

/-- What is provided touches neither bodies nor layouts nor addresses. -/
theorem frame_provide (singleton : Text) (tally : Tally) (l : Listing) :
    (provide singleton tally l).bodies = l.bodies ∧ (provide singleton tally l).layouts = l.layouts ∧
      (provide singleton tally l).addresses = l.addresses := by
  rw [provide]
  split <;> split <;> split <;> exact ⟨rfl, rfl, rfl⟩

/-- The context in which the bodies of a listing have been changed. -/
def contextOf (function stem : Text) (l : Listing) : Context :=
  ⟨function, l.addresses, l.layouts, singletonSymbol stem⟩

theorem proper_contextOf (function stem : Text) (l : Listing) : (contextOf function stem l).Proper where
  symbol := exists_singletonSymbol_eq stem
  newline := by
    have hplain : Name.Plain ("_j_empty_memory_" ++ Name.sanitize stem) :=
      Name.Plain.append (Text.forall_mem_of_all (by decide)) (Name.plain_sanitize stem)
    exact fun hmem => (hplain.forall_mem_symbol '\n' hmem).2.2 rfl

/-- What a run does: the listing before, the listing after, and the tally. -/
structure Lowered (heap : HeapImage) (function stem : Text) (l l' : Listing) (tally : Tally) : Prop where
  /-- The tally has the numbers of loads, allocations and markers. -/
  counts : Counts (contextOf function stem l') (l.bodies.flatMap Text.lines) tally
  /-- The bodies change line by line, and the blocks for null values go. -/
  bodies : List.Forall₂ (fun body new => ∃ changes, Rewrites (contextOf function stem l') body changes new)
    l.bodies l'.bodies
  /-- No load, allocation or marker is left. -/
  clear : ∀ body ∈ l'.bodies, ∀ line ∈ Text.lines body, Clear l'.addresses line
  /-- The layouts of the container types that the code mentions become known. -/
  layouts : ∀ s, l'.layouts[s]? = l.layouts[s]?.or
    (if s ∈ mentioned l then (l.addresses.containerAddress? s).bind heap.layout? else none)
  /-- All else is as before, but for the empty instance and the allocators. -/
  rest : l' = provide (singletonSymbol stem) tally { l with layouts := l'.layouts, bodies := l'.bodies }
  /-- A second run does nothing but read layouts. -/
  again : (lower heap function stem l').value =
    ({ l' with layouts := (resolve heap function l'.addresses (mentioned l') l'.layouts).value.1 },
      (resolve heap function l'.addresses (mentioned l') l'.layouts).value.2.map fun _ => {})
  /-- It does nothing at all if and only if the new code mentions no container types beyond those that
  the old code mentioned and those known before. -/
  settled : (lower heap function stem l').value = (l', .ok {}) ↔
    ∀ s ∈ mentioned l', s ∈ mentioned l ∨ s ∈ l.layouts
  /-- So it is if the old code mentioned all container types of its listing that were not known before. -/
  idle : (∀ s, l.addresses.isContainer s → s ∈ mentioned l ∨ s ∈ l.layouts) →
    (lower heap function stem l').value = (l', .ok {})

variable {heap : HeapImage} {function stem : Text} {l l' : Listing} {tally : Tally}

/-- **A run changes what it should and nothing else.**  The operands of an allocation are those up to the
first closing parenthesis, also if that one is part of a name. -/
theorem lower_exact (hregular : ∀ body ∈ l.bodies, ∀ line ∈ Text.lines body, Regular l.addresses line)
    (h : (lower heap function stem l).value = (l', .ok tally)) :
    Lowered heap function stem l l' tally := by
  obtain ⟨layouts, bodies, hresolve, hlower, hl⟩ := exists_of_lower h
  obtain ⟨hbodies, hlayouts, haddresses⟩ : l'.bodies = bodies ∧ l'.layouts = layouts ∧
      l'.addresses = l.addresses := by
    rw [hl]
    exact frame_provide _ _ _
  subst hbodies hlayouts
  rw [← haddresses] at hlower hregular
  have hc := proper_contextOf function stem l'
  obtain ⟨hrewrites, hcounts⟩ := forall₂_of_lowerBodies hc hregular hlower
  have hclear : ∀ body ∈ l'.bodies, ∀ line ∈ Text.lines body, Clear l'.addresses line := by
    intro new hnew
    obtain ⟨body, hbody, changes, hchanges⟩ := hrewrites.exists_of_mem hnew
    exact hchanges.clear (hregular body hbody) hc
  have hcontainer : ∀ s ∈ mentioned l', l.addresses.isContainer s := by
    rw [← haddresses]
    exact fun s hs => isContainer_of_mem_mentioned hs
  have hsettled : (lower heap function stem l').value = (l', .ok {}) ↔
      ∀ s ∈ mentioned l', s ∈ mentioned l ∨ s ∈ l.layouts := by
    rw [lower_eq_self_iff_of_clear hclear]
    exact forall_congr' fun s => forall_congr' fun hs => mem_layouts_of_resolve hresolve (hcontainer s hs)
  exact ⟨hcounts, hrewrites, hclear, (resolve_eq_ok hresolve).1, hl, lower_of_clear heap function stem hclear,
    hsettled, fun hall => hsettled.mpr fun s hs => hall s (hcontainer s hs)⟩

/-- The tally and the bodies of a run, put together so that they can be computed at once. -/
def result? (run : Listing × Except Error Tally) : Option (Tally × List Text) :=
  run.2.toOption.map fun tally => (tally, run.1.bodies)

theorem exists_of_result {run : Listing × Except Error Tally} {tally : Tally} {bodies : List Text}
    (h : result? run = some (tally, bodies)) : ∃ l', run = (l', .ok tally) ∧ l'.bodies = bodies := by
  obtain ⟨tally, hok, hpair⟩ := Except.exists_of_map_toOption h
  obtain ⟨rfl, rfl⟩ := Prod.mk.inj hpair
  exact ⟨run.1, Prod.ext rfl hok, rfl⟩

theorem regular_unlines {table : AddressTable} {line : Text} {lines : List Text}
    (h : (line :: lines).all fun t => decide (Regular table t) && t.all (· != '\n')) :
    ∀ body ∈ [Text.unlines (line :: lines)], ∀ t ∈ Text.lines body, Regular table t := by
  simp only [List.all_eq_true, Bool.and_eq_true, decide_eq_true_eq] at h
  have hlines : Text.lines (Text.unlines (line :: lines)) = line :: lines :=
    Text.lines_unlines (List.cons_ne_nil _ _)
      (List.all_eq_true.mpr fun t ht => List.all_eq_true.mpr (h t ht).2)
  rw [List.forall_mem_singleton, hlines]
  exact fun t ht => (h t ht).1

/-- A container type of integers. -/
def integerHeap : HeapImage :=
  (({} : HeapImage).defineDatatype 0x20000 8 0).defineContainerType 0x10000 0x20000

/-- The symbol of that type. -/
def integerTable : AddressTable where
  containers := ({} : Std.ExtTreeMap UInt64 Text).insert 0x10000 "@T"

/-- Two loads whose comparisons and branches come in different orders, a marker, and an allocation. -/
def interleavedLines : List Text :=
  ["  %x = load atomic ptr, ptr getelementptr inbounds (i8, ptr @T, i64 32) unordered, align 8",
    "  %\"y z\" = load atomic ptr, ptr getelementptr inbounds (i8, ptr @T, i64 32) unordered, align 8",
    "  call void @julia.memoryref(ptr %x)", "  %d = icmp ne ptr %\"y z\", null", "  %c = icmp eq ptr %x, null",
    "  br i1 %c, label %fail, label %next", "  br i1 %d, label %next, label %fail", "fail:", "  unreachable",
    "next:", "  %m = call ptr @jl_alloc_genericmemory(ptr @T, i64 %n)"]

/-- What becomes of them. -/
def interleavedResult : List Text :=
  ["  %x = bitcast ptr @_j_empty_memory_f to ptr", "  %\"y z\" = bitcast ptr @_j_empty_memory_f to ptr",
    "  br label %next", "  br label %next", "next:", "  %m.bytes = mul i64 %n, 8",
    "  %m = call ptr @malloc(i64 16)", "  %m.data = call ptr @malloc(i64 %m.bytes)",
    "  store i64 %n, ptr %m, align 8", "  %m.data_slot = getelementptr inbounds i8, ptr %m, i64 8",
    "  store ptr %m.data, ptr %m.data_slot, align 8"]

/-- The listing with these lines. -/
def interleavedListing : Listing where
  bodies := [Text.unlines interleavedLines]
  addresses := integerTable

theorem regular_interleaved :
    ∀ body ∈ interleavedListing.bodies, ∀ line ∈ Text.lines body,
      Regular interleavedListing.addresses line := by
  refine regular_unlines ?_
  repeat rw [Text.toList_literal]
  decide +kernel

theorem run_interleaved : result? (lower integerHeap "f" "f" interleavedListing).value =
    some ({ dereferences := 2, allocations := 1, markers := 1 }, [Text.unlines interleavedResult]) := by
  unfold interleavedListing interleavedLines interleavedResult
  repeat rw [Text.toList_literal]
  decide +kernel

/-- All of it is changed at once. -/
theorem lower_exact_interleaved :
    (∀ body ∈ interleavedListing.bodies, ∀ line ∈ Text.lines body,
      Regular interleavedListing.addresses line) ∧
    ∃ l', (lower integerHeap "f" "f" interleavedListing).value =
        (l', .ok { dereferences := 2, allocations := 1, markers := 1 }) ∧
      l'.bodies = [Text.unlines interleavedResult] ∧
      Lowered integerHeap "f" "f" interleavedListing l'
        { dereferences := 2, allocations := 1, markers := 1 } := by
  obtain ⟨l', hrun, hbodies⟩ := exists_of_result run_interleaved
  exact ⟨regular_interleaved, l', hrun, hbodies, lower_exact regular_interleaved hrun⟩

/-- An allocation whose length has a name with a closing parenthesis. -/
def quotedLengthListing : Listing where
  bodies := [Text.unlines ["  %m = call ptr @jl_alloc_genericmemory(ptr @T, i64 %\"n (x)\")"]]
  addresses := integerTable

/-- The name is cut at the parenthesis, in all instructions that use it. -/
theorem quotedLength_cut :
    (∀ body ∈ quotedLengthListing.bodies, ∀ line ∈ Text.lines body,
      Regular quotedLengthListing.addresses line) ∧
    ∃ l', (lower integerHeap "f" "f" quotedLengthListing).value = (l', .ok { allocations := 1 }) ∧
      l'.bodies = [Text.unlines (Creation.lines ⟨"  ", "%m", "%\"n (x", .inPlace 8⟩)] ∧
      l'.bodies ≠ [Text.unlines (Creation.lines ⟨"  ", "%m", "%\"n (x)\"", .inPlace 8⟩)] := by
  have hrun : result? (lower integerHeap "f" "f" quotedLengthListing).value =
      some ({ allocations := 1 }, [Text.unlines (Creation.lines ⟨"  ", "%m", "%\"n (x", .inPlace 8⟩)]) := by
    decide +kernel
  have hne : [Text.unlines (Creation.lines ⟨"  ", "%m", "%\"n (x", .inPlace 8⟩)] ≠
      [Text.unlines (Creation.lines ⟨"  ", "%m", "%\"n (x)\"", .inPlace 8⟩)] := by
    decide +kernel
  obtain ⟨l', hvalue, hbodies⟩ := exists_of_result hrun
  exact ⟨regular_unlines (by decide +kernel), l', hvalue, hbodies, hbodies ▸ hne⟩

end Container

end Freestanding
