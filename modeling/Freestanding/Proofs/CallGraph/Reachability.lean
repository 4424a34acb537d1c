import Freestanding.Proofs.CallGraph.Order

/-!
# The call graph is exact

A walk from an entry finds the reached functions, all of them and nothing else, in breadth-first order.
It compiles them on the way and leaves everything else of the host as it was.  It fails exactly if the
entry is not recorded or a reached function calls something that is not.

The invariant of the walk ties its queue, its list of unseen handles, the functions found, their index and
the host together.  The functions taken off the queue and those still in it are the discovery list of the
functions visited; the visited ones are those that are not left out; the index has their places; and the
host is the one of the start with the visited functions compiled.

## Main definitions

* `CallGraph.Walked` — the invariant.
* `CallGraph.IsGraphOf` — what a call graph and the host after the walk have to be.

## Main results

* `CallGraph.Walked.pass`, `CallGraph.Walked.visit` — the steps keep the invariant.
* `CallGraph.Walked.unknown_of_stuck` — where a walk can fail.
* `CallGraph.collect_exact` — **the walk fails exactly where it has to, and otherwise gives the call
  graph of the entry.**
-/

namespace Freestanding.CallGraph

/-! ### The invariant -/

/-- The state of a walk over a host `H`, after the functions `popped` have been taken off the queue. -/
structure Walked (H : Host) (entry : Handle) (popped : List Handle) (host : Host)
    (unseen queue : List Handle) (g : CallGraph) : Prop where
  /-- The visited functions are compiled, and nothing else has changed. -/
  host_eq : host = H.compiling (g.nodes.map Node.handle)
  /-- The queue holds what has been found from the visited functions, in order. -/
  found : popped ++ queue = (entry :: (g.nodes.map Node.handle).flatMap H.called).eraseDups
  /-- The visited functions are those that are not left out. -/
  kept : g.nodes.map Node.handle = popped.filter (!skips H entry ·)
  /-- The index has their places. -/
  indexed : g.Indexed
  /-- Every unseen handle is listed once. -/
  nodup_unseen : unseen.Nodup
  /-- A handle is unseen until it has been in the queue. -/
  mem_unseen : ∀ g, g ∈ unseen ↔ H.Has g ∧ g ∉ popped ++ queue
  /-- Everything found is reached, or left out. -/
  reached : ∀ g ∈ popped ++ queue, skips H entry g = false → Reached H entry g
  /-- The visited functions are recorded. -/
  has : ∀ n ∈ g.nodes, H.Has n.handle
  /-- No visited function calls something that is not recorded. -/
  sturdy : ∀ n ∈ g.nodes, ¬ H.Dangling n.handle
  /-- The visited functions have their own signatures. -/
  described : ∀ n ∈ g.nodes, H.describe n.handle = .ok n.signature

theorem mem_handles {H : Host} (hle : H.functions.length ≤ UInt32.size) (g : Handle) :
    g ∈ handles H ↔ H.Has g := by
  unfold handles Host.Has
  rw [List.mem_map]
  constructor
  · rintro ⟨n, hn, rfl⟩
    rw [List.mem_range] at hn
    rw [Handle.position_ofPosition (by omega)]
    exact hn
  · intro hg
    exact ⟨g.position, List.mem_range.mpr hg, Handle.ofPosition_position g⟩

theorem nodup_handles {H : Host} (hle : H.functions.length ≤ UInt32.size) : (handles H).Nodup := by
  unfold handles
  refine List.Nodup.map_on ?_ List.nodup_range
  intro n hn m hm he
  rw [List.mem_range] at hn hm
  rw [Handle.ofPosition_eq_iff (by omega), Handle.position_ofPosition (by omega)] at he
  exact he

private theorem skips_eq_true {H : Host} {entry h : Handle} {s : Signature} (hd : H.describe h = .ok s)
    (hp : Passes entry h s) : skips H entry h = true := by
  unfold skips
  rw [hd]
  simpa [Passes] using hp

theorem skips_eq_false {H : Host} {entry h : Handle} {s : Signature} (hd : H.describe h = .ok s)
    (hp : ¬ Passes entry h s) : skips H entry h = false := by
  unfold skips
  rw [hd]
  simpa [Passes] using hp

namespace Walked

variable {H host : Host} {entry h : Handle} {popped unseen queue : List Handle} {g : CallGraph}
  {s : Signature}

/-- The walk starts with the entry in the queue and all other handles unseen. -/
theorem start (hle : H.functions.length ≤ UInt32.size) (entry : Handle) :
    Walked H entry [] H ((handles H).erase entry) [entry] {} where
  host_eq := by simp
  found := rfl
  kept := rfl
  indexed := .empty
  nodup_unseen := (nodup_handles hle).erase entry
  mem_unseen := by
    intro g
    rw [(nodup_handles hle).mem_erase_iff, mem_handles hle]
    simp [and_comm]
  reached := by
    intro g hg _
    obtain rfl : g = entry := by simpa using hg
    exact .entry
  has := by simp
  sturdy := by simp
  described := by simp

/-- A function that is passed over leaves the queue. -/
theorem pass (hw : Walked H entry popped host unseen (h :: queue) g)
    (hd : host.describe h = .ok s) (hp : Passes entry h s) :
    Walked H entry (popped ++ [h]) host unseen queue g where
  host_eq := hw.host_eq
  found := by rw [List.append_assoc]; exact hw.found
  kept := by
    rw [hw.host_eq, Host.describe_compiling] at hd
    rw [List.filter_append, hw.kept, List.filter_cons_of_neg (by simp [skips_eq_true hd hp])]
    simp
  indexed := hw.indexed
  nodup_unseen := hw.nodup_unseen
  mem_unseen := by
    intro g
    rw [List.append_assoc]
    exact hw.mem_unseen g
  reached := by
    intro g hg
    rw [List.append_assoc] at hg
    exact hw.reached g hg
  has := hw.has
  sturdy := hw.sturdy
  described := hw.described

/-- A function can be described only if it is recorded. -/
theorem has_head (ha : H.Aligned) (hw : Walked H entry popped host unseen (h :: queue) g)
    (hd : host.describe h = .ok s) : H.Has h := by
  rw [hw.host_eq, Host.describe_compiling] at hd
  by_cases hf : H.Has h
  · exact hf
  · rw [Host.describe_eq_error ha hf] at hd
    cases hd

/-- No function is visited twice. -/
theorem head_notMem (hw : Walked H entry popped host unseen (h :: queue) g) :
    h ∉ g.nodes.map Node.handle := by
  have hnodup : (popped ++ h :: queue).Nodup := by
    rw [hw.found]
    exact List.nodup_eraseDups _
  rw [List.nodup_append] at hnodup
  rw [hw.kept, List.mem_filter]
  rintro ⟨hmem, -⟩
  exact hnodup.2.2 h hmem h (by simp) rfl

/-- What is claimed on a visit is what the visit adds to the discovery list. -/
theorem claim_called (ha : H.Aligned)
    (hw : Walked H entry popped host unseen (h :: queue) g) :
    (claim unseen (H.called h)).1 = ((H.called h).filter
      (· ∉ entry :: (g.nodes.map Node.handle).flatMap H.called)).eraseDups := by
  rw [claim_fst hw.nodup_unseen]
  congr 1
  refine List.filter_congr fun c hc => ?_
  have hcu : c ∈ unseen ↔ c ∉ entry :: (g.nodes.map Node.handle).flatMap H.called := by
    rw [hw.mem_unseen, hw.found, List.mem_eraseDups]
    exact and_iff_right (Host.has_of_mem_called ha.length_le hc)
  exact decide_eq_decide.mpr hcu

/-- A visit compiles the function, lists it, notes its place and puts its new callees at the end of the
queue. -/
theorem visit (ha : H.Aligned) (hw : Walked H entry popped host unseen (h :: queue) g)
    {host' : Host} {callees : List Handle} (hd : host.describe h = .ok s)
    (hp : ¬ Passes entry h s) (hc : host.ensureCompiled h = .ok host')
    (hcs : host'.callees h = .ok callees) (names : Names) :
    Walked H entry (popped ++ [h]) host' (claim unseen callees).2
      (queue ++ (claim unseen callees).1) (g.push (nextNode names h s)) := by
  have hhas := hw.has_head ha hd
  have hdone : (g.push (nextNode names h s)).nodes.map Node.handle = g.nodes.map Node.handle ++ [h] := by
    simp
  have hhost : host' = H.compiling (g.nodes.map Node.handle ++ [h]) := by
    rw [hw.host_eq, Host.ensureCompiled_compiling ha.length_le hhas hw.head_notMem] at hc
    exact (Except.ok.inj hc).symm
  rw [hhost, Host.callees_compiling] at hcs
  obtain ⟨hsturdy, rfl⟩ := Host.called_of_callees hcs
  rw [hw.host_eq, Host.describe_compiling] at hd
  have hskip := skips_eq_false hd hp
  have hclaim := hw.claim_called ha
  have hfound : (popped ++ [h]) ++ (queue ++ (claim unseen (H.called h)).1)
      = (entry :: (g.nodes.map Node.handle ++ [h]).flatMap H.called).eraseDups := by
    rw [List.flatMap_append, ← List.cons_append, List.eraseDups_append_filter, ← hw.found, hclaim]
    simp
  constructor
  case host_eq => rw [hdone, hhost]
  case found => rw [hdone, hfound]
  case kept =>
    rw [hdone, hw.kept, List.filter_append, List.filter_cons_of_pos (by simp [hskip])]
    simp
  case indexed => exact hw.indexed.push hw.head_notMem
  case nodup_unseen =>
    rw [claim_snd hw.nodup_unseen]
    exact hw.nodup_unseen.filter _
  case mem_unseen =>
    intro g
    rw [hfound, List.mem_eraseDups, claim_snd hw.nodup_unseen, List.mem_filter, hw.mem_unseen,
      hw.found, List.mem_eraseDups, List.flatMap_append, ← List.cons_append, List.mem_append]
    simp only [decide_eq_true_eq, List.flatMap_cons, List.flatMap_nil, List.append_nil]
    tauto
  case reached =>
    intro g hg hsg
    rw [hfound, List.mem_eraseDups, List.flatMap_append, ← List.cons_append, List.mem_append] at hg
    rcases hg with hg | hg
    · rw [← List.mem_eraseDups, ← hw.found] at hg
      exact hw.reached g hg hsg
    · have hh : Reached H entry h := hw.reached h (by simp) hskip
      refine hh.call (List.mem_filter.mpr ⟨?_, by simp [hsg]⟩)
      simpa using hg
  case has => exact forall_mem_push.mpr ⟨hw.has, hhas⟩
  case sturdy => exact forall_mem_push.mpr ⟨hw.sturdy, hsturdy⟩
  case described => exact forall_mem_push.mpr ⟨hw.described, hd⟩

/-! ### Where a walk fails -/

/-- Everything in the queue is recorded, save possibly the entry. -/
theorem has_of_mem (ha : H.Aligned) (hw : Walked H entry popped host unseen queue g)
    {f : Handle} (hf : f ∈ popped ++ queue) (hne : f ≠ entry) : H.Has f := by
  rw [hw.found, List.mem_eraseDups, List.mem_cons, List.mem_flatMap] at hf
  rcases hf with hf | ⟨caller, -, hf⟩
  · exact absurd hf hne
  · exact Host.has_of_mem_called ha.length_le hf

/-- A walk fails only because the entry is not recorded, or because of a reached function that calls
something that is not. -/
theorem unknown_of_stuck (ha : H.Aligned)
    (hw : Walked H entry popped host unseen (h :: queue) g) {e : Error}
    (hs : Stuck entry host h e) :
    (∃ id, e = .unknownFunction id) ∧
      (¬ H.Has entry ∨ ∃ f, Reached H entry f ∧ H.Dangling f) := by
  cases hs with
  | describe hd =>
    rw [hw.host_eq, Host.describe_compiling] at hd
    have hnot : ¬ H.Has h := by
      intro hh
      obtain ⟨s, hs⟩ := Host.describe_eq ha hh
      rw [hs] at hd
      cases hd
    rw [Host.describe_eq_error ha hnot] at hd
    have hentry : h = entry := by
      by_contra hne
      exact hnot (hw.has_of_mem ha (by simp) hne)
    exact ⟨⟨h.id, (Except.error.inj hd).symm⟩, Or.inl (hentry ▸ hnot)⟩
  | compile s hd hp hc =>
    rw [hw.host_eq, Host.ensureCompiled_compiling ha.length_le (hw.has_head ha hd)
      hw.head_notMem] at hc
    cases hc
  | callees s host' hd hp hc hcs =>
    have hhas := hw.has_head ha hd
    rw [hw.host_eq, Host.ensureCompiled_compiling ha.length_le hhas hw.head_notMem] at hc
    rw [← Except.ok.inj hc, Host.callees_compiling] at hcs
    have hdangling : H.Dangling h := by
      by_contra hnot
      rw [Host.callees_eq hhas hnot] at hcs
      cases hcs
    obtain ⟨id, hid⟩ := Host.callees_eq_error hdangling
    rw [hw.host_eq, Host.describe_compiling] at hd
    rw [hid] at hcs
    exact ⟨⟨id, (Except.error.inj hcs).symm⟩,
      Or.inr ⟨h, hw.reached h (by simp) (skips_eq_false hd hp), hdangling⟩⟩

/-! ### The end of a walk -/

/-- At the end the visited functions are their own discovery list. -/
theorem handles_eq_discovered (hw : Walked H entry popped host unseen [] g) :
    g.nodes.map Node.handle = discovered H entry (g.nodes.map Node.handle) := by
  have hfound := hw.found
  rw [List.append_nil] at hfound
  calc g.nodes.map Node.handle
      = popped.filter (!skips H entry ·) := hw.kept
    _ = (entry :: (g.nodes.map Node.handle).flatMap H.called).eraseDups.filter
          (!skips H entry ·) := by rw [hfound]
    _ = ((entry :: (g.nodes.map Node.handle).flatMap H.called).filter
          (!skips H entry ·)).eraseDups := by rw [List.eraseDups_filter]
    _ = discovered H entry (g.nodes.map Node.handle) := by
        rw [List.filter_cons_of_pos (by simp), List.filter_flatMap]
        rfl

/-- At the end the visited functions are the reached ones. -/
theorem mem_handles_iff (hw : Walked H entry popped host unseen [] g) (f : Handle) :
    f ∈ g.nodes.map Node.handle ↔ Reached H entry f := by
  constructor
  · intro hf
    rw [hw.kept, List.mem_filter] at hf
    exact hw.reached f (by simpa using hf.1) (by simpa using hf.2)
  · intro hf
    rw [hw.handles_eq_discovered, mem_discovered]
    induction hf with
    | entry => exact Or.inl rfl
    | @call caller f _ hcall ih =>
      refine Or.inr ⟨caller, ?_, hcall⟩
      rw [hw.handles_eq_discovered, mem_discovered]
      exact ih

end Walked

/-! ### The graph -/

/-- A graph, and the host after the walk, are what they have to be for an entry of a host. -/
structure IsGraphOf (host : Host) (entry : Handle) (after : Host) (g : CallGraph) : Prop where
  /-- The entry comes first. -/
  entry_first : g.entry?.map Node.handle = some entry
  /-- No function is listed twice. -/
  nodup : (g.nodes.map Node.handle).Nodup
  /-- Exactly the reached functions are listed. -/
  mem_iff : ∀ f, f ∈ g.nodes.map Node.handle ↔ Reached host entry f
  /-- They are listed in breadth-first order. -/
  order : ∃ n, g.nodes.map Node.handle = within host entry n
  /-- Each has its own signature. -/
  described : ∀ n ∈ g.nodes, host.describe n.handle = .ok n.signature
  /-- The index has the places of the listed functions, and nothing else. -/
  index_iff : ∀ (f : Handle) (i : Nat),
    g.index[f.id]? = some i ↔ ∃ n, g.nodes[i]? = some n ∧ n.handle = f
  /-- Looking a handle up finds the function that is listed under it. -/
  get_iff : ∀ f n, g.get? f = some n ↔ n ∈ g.nodes ∧ n.handle = f
  /-- The graph contains the handles that are listed. -/
  contains_iff : ∀ f, g.contains f = true ↔ f ∈ g.nodes.map Node.handle
  /-- The name of a handle is the one in the list. -/
  nameOf_iff : ∀ f name, g.nameOf? f = some name ↔ ∃ n ∈ g.nodes, n.handle = f ∧ n.mangled = name
  /-- The functions that had not been compiled have been noted, in the order of the list. -/
  onDemand : after.compiledOnDemand =
    host.compiledOnDemand ++ (g.nodes.map Node.handle).filter (!host.isCompiled ·)
  /-- The listed functions, and no others, are marked as compiled; nothing else of a record has
  changed. -/
  records : after.functions = host.functions.mapIdx fun i r =>
    if Handle.ofPosition i ∈ g.nodes.map Node.handle then { r with compiled := true } else r
  /-- The signatures have not changed. -/
  table : after.table = host.table
  /-- Every listed function can be dumped, and gives its recorded code. -/
  dumps : ∀ n ∈ g.nodes, ∃ r, host.get n.handle = .ok r ∧ after.dump n.handle = .ok r.ir

/-- The end of a walk is the graph of its entry. -/
theorem Walked.isGraphOf {H host : Host} {entry : Handle} {popped unseen : List Handle}
    {g : CallGraph} (hw : Walked H entry popped host unseen [] g) :
    IsGraphOf H entry host g := by
  have hself := hw.handles_eq_discovered
  have hnodup : (g.nodes.map Node.handle).Nodup := by
    rw [hself]
    exact List.nodup_eraseDups _
  constructor
  case entry_first =>
    unfold entry?
    rw [← List.head?_map, hself, discovered, List.eraseDups_cons, List.head?_cons]
  case nodup => exact hnodup
  case mem_iff => exact hw.mem_handles_iff
  case order => exact exists_eq_within hself fun f hf => (hw.mem_handles_iff f).mp hf
  case described => exact hw.described
  case index_iff => exact hw.indexed
  case get_iff => exact hw.indexed.get?_eq_some_iff
  case contains_iff => exact hw.indexed.contains_iff_mem
  case nameOf_iff => exact hw.indexed.nameOf?_eq_some_iff
  case onDemand =>
    rw [hw.host_eq]
    rfl
  case records =>
    rw [hw.host_eq]
    rfl
  case table =>
    rw [hw.host_eq]
    rfl
  case dumps =>
    intro n hn
    have hhas := hw.has n hn
    refine ⟨_, Host.get_eq hhas, ?_⟩
    rw [hw.host_eq]
    exact Host.dump_compiling (List.mem_map_of_mem hn) (Host.get_eq hhas)

/-- A recording does not hold all that an entry needs: the entry is missing, or a reached function
calls a position at which nothing is recorded. -/
def Incomplete (host : Host) (entry : Handle) : Prop :=
  ¬ host.Has entry ∨ ∃ f, Reached host entry f ∧ host.Dangling f

/-- A walk that comes to its end has missed nothing. -/
theorem Walked.not_incomplete {H host : Host} {entry : Handle} {popped unseen : List Handle}
    {g : CallGraph} (hw : Walked H entry popped host unseen [] g) :
    ¬ Incomplete H entry := by
  rintro (hnot | ⟨f, hf, hdangling⟩)
  · obtain ⟨n, hn, he⟩ := List.mem_map.mp ((hw.mem_handles_iff entry).mpr .entry)
    exact hnot (he ▸ hw.has n hn)
  · obtain ⟨n, hn, he⟩ := List.mem_map.mp ((hw.mem_handles_iff f).mpr hf)
    exact hw.sturdy n hn (he ▸ hdangling)

/-- A walk from an entry either finds the recording incomplete or gives the graph of the entry. -/
theorem collect_cases {host : Host} (ha : host.Aligned) (entry : Handle) :
    (Incomplete host entry ∧ ∃ id, (collect host entry).2 = .error (.unknownFunction id)) ∨
    (¬ Incomplete host entry ∧
      ∃ g, (collect host entry).2 = .ok g ∧ IsGraphOf host entry (collect host entry).1 g) := by
  obtain ⟨hok, herror⟩ := walk_invariant entry
    (P := fun h unseen queue _ g => ∃ popped, Walked host entry popped h unseen queue g)
    (fun h unseen f queue names g s ⟨popped, hw⟩ hd hp => ⟨popped ++ [f], hw.pass hd hp⟩)
    (fun h h' unseen f queue names g s callees ⟨popped, hw⟩ hd hp hc hcs =>
      ⟨popped ++ [f], hw.visit ha hd hp hc hcs names⟩)
    host ((handles host).erase entry) [entry] {} {} ⟨[], Walked.start ha.length_le entry⟩
  change ∀ after g, collect host entry = (after, .ok g) → _ at hok
  change ∀ after e, collect host entry = (after, .error e) → _ at herror
  rcases hres : collect host entry with ⟨after, e | g⟩
  · -- The walk has failed: its invariant says why.
    obtain ⟨h₁, unseen₁, f, queue₁, names₁, g₁, ⟨popped, hw⟩, hs⟩ := herror after e hres
    obtain ⟨⟨id, rfl⟩, hwhy⟩ := hw.unknown_of_stuck ha hs
    exact Or.inl ⟨hwhy, id, rfl⟩
  · -- The walk has ended: its invariant is the specification of the graph.
    obtain ⟨unseen', names', popped, hw⟩ := hok after g hres
    exact Or.inr ⟨hw.not_incomplete, g, rfl, hw.isGraphOf⟩

/-- **The call graph is exact.**  Collecting it from a host fails, with an unknown function, if and only
if the recording is incomplete: the entry is not recorded, or a reached function calls a position at
which nothing is recorded.  Otherwise it gives the graph of the entry. -/
theorem collect_exact {host : Host} (hb : host.Built) (entry : Handle) :
    ((∃ id, (collect host entry).2 = .error (.unknownFunction id)) ↔ Incomplete host entry) ∧
    (¬ Incomplete host entry →
      ∃ g, (collect host entry).2 = .ok g ∧ IsGraphOf host entry (collect host entry).1 g) := by
  rcases collect_cases hb.aligned entry with ⟨hinc, herror⟩ | ⟨hcomp, g, hok, hg⟩
  · exact ⟨iff_of_true herror hinc, fun hcomp => absurd hinc hcomp⟩
  · refine ⟨iff_of_false ?_ hcomp, fun _ => ⟨g, hok, hg⟩⟩
    rintro ⟨id, hid⟩
    rw [hok] at hid
    cases hid

/-- Two functions that call each other, the entry that calls both, and an error function. -/
def mutualHost : Host :=
  [⟨"main", "Main", [], [1, 2], [], false⟩, ⟨"even", "Main", [], [2, 1, 3], [], true⟩,
    ⟨"odd", "Main", [], [1], [], false⟩, ⟨"throw_boundserror", "Main", [], [], [], false⟩].foldl
    (fun (h : Host) f => (h.add f).1) {}

private theorem mutualHost_built : mutualHost.Built :=
  (((Host.Built.empty.add _).add _).add _).add _

private theorem mutualHost_complete : ¬ Incomplete mutualHost ⟨0⟩ := by
  rintro (hnot | ⟨f, -, r, hr, n, hn, hle⟩)
  · exact hnot (by decide)
  · have hmem : r ∈ mutualHost.functions := by
      have hf := Host.has_of_get hr
      rw [Host.get_eq hf] at hr
      cases hr
      exact List.get_mem _ _
    have hall : ∀ r ∈ mutualHost.functions, ∀ n ∈ r.callees, n < mutualHost.functions.length := by
      decide
    exact absurd (hall r hmem n hn) (by omega)

/-- The graph of two functions that call each other: the entry first, then both, and the error function is
left out. -/
theorem collect_exact_mutualHost :
    mutualHost.Built ∧ ∃ g, (collect mutualHost ⟨0⟩).2 = .ok g ∧
      g.nodes.map Node.handle = [⟨0⟩, ⟨1⟩, ⟨2⟩] ∧ g.index.toList = [(0, 0), (1, 1), (2, 2)] ∧
      g.nameOf? ⟨2⟩ = some "Main_odd".toList ∧ g.contains ⟨3⟩ = false ∧
      (collect mutualHost ⟨0⟩).1.compiledOnDemand = [⟨0⟩, ⟨2⟩] ∧
      IsGraphOf mutualHost ⟨0⟩ (collect mutualHost ⟨0⟩).1 g := by
  obtain ⟨g, hg, hgraph⟩ := (collect_exact mutualHost_built ⟨0⟩).2 mutualHost_complete
  obtain ⟨heval, hdemand⟩ : (((collect mutualHost ⟨0⟩).2.toOption.map fun g =>
        (g.nodes.map Node.handle, g.index.toList, g.nameOf? ⟨2⟩, g.contains ⟨3⟩)) =
          some ([⟨0⟩, ⟨1⟩, ⟨2⟩], [(0, 0), (1, 1), (2, 2)], some "Main_odd".toList, false)) ∧
      (collect mutualHost ⟨0⟩).1.compiledOnDemand = [⟨0⟩, ⟨2⟩] := by
    decide +kernel
  rw [hg] at heval
  obtain ⟨hnodes, hlookups⟩ := Prod.mk.inj (Option.some.inj heval)
  obtain ⟨hindex, hlookups⟩ := Prod.mk.inj hlookups
  obtain ⟨hname, hcontains⟩ := Prod.mk.inj hlookups
  exact ⟨mutualHost_built, g, hg, hnodes, hindex, hname, hcontains, hdemand, hgraph⟩

end Freestanding.CallGraph
