import Freestanding.Proofs.Region.Scan
import Mathlib.Data.List.Infix
import Mathlib.Order.Nat

/-!
# Counting delimiters

The number of delimiters that are open is the number of opening ones that have been read less the number of
closing ones, where only those count that are read as code.  A scan goes on as long as opening ones are
ahead.  As both counts grow by one at most with each character, the opening ones cannot be overtaken without
being drawn level first: the partner of a delimiter is where this happens for the first time.

## Main definitions

* `Region.modeAfter` — the mode after a text.
* `Region.liveCount` — how often a character is read as code.
* `Region.Level` — as many closing delimiters as opening ones have been read.

## Main results

* `Region.step_eq_some_iff`, `Region.scan_eq_some_iff` — **the state of a scan, told by counting.**
* `Region.closeIndex?_eq_some_iff_isLeast` — **the partner of a delimiter is the first place where the counts
  are level.**
* `Region.exists_closeIndex?` — a delimiter has a partner if it is overtaken.
* `Region.exists_closeIndex?_drop` — partners are nested.
-/

namespace Freestanding.Region

variable {opening closing : Char}

/-! ### Modes and counts -/

/-- The mode after a text. -/
def modeAfter (mode : Mode) (t : Text) : Mode :=
  t.foldl Mode.next mode

@[simp] theorem modeAfter_nil (mode : Mode) : modeAfter mode [] = mode := rfl

@[simp] theorem modeAfter_cons (mode : Mode) (c : Char) (t : Text) :
    modeAfter mode (c :: t) = modeAfter (mode.next c) t := rfl

@[simp] theorem modeAfter_append (mode : Mode) (t u : Text) :
    modeAfter mode (t ++ u) = modeAfter (modeAfter mode t) u :=
  List.foldl_append

/-- How often a character is read as code in a text. -/
def liveCount (c : Char) : (mode : Mode) → Text → Nat
  | _, [] => 0
  | mode, d :: t => (if mode = .code ∧ d = c then 1 else 0) + liveCount c (mode.next d) t

@[simp] theorem liveCount_nil (c : Char) (mode : Mode) : liveCount c mode [] = 0 := rfl

@[simp] theorem liveCount_cons (c : Char) (mode : Mode) (d : Char) (t : Text) : liveCount c mode (d :: t) =
    (if mode = .code ∧ d = c then 1 else 0) + liveCount c (mode.next d) t := rfl

@[simp] theorem liveCount_append (c : Char) (mode : Mode) (t u : Text) :
    liveCount c mode (t ++ u) = liveCount c mode t + liveCount c (modeAfter mode t) u := by
  induction t generalizing mode with
  | nil => simp
  | cons d t ih => rw [List.cons_append, liveCount_cons, ih, liveCount_cons, modeAfter_cons, Nat.add_assoc]

theorem liveCount_concat (c : Char) (mode : Mode) (t : Text) (d : Char) : liveCount c mode (t ++ [d]) =
    liveCount c mode t + if modeAfter mode t = .code ∧ d = c then 1 else 0 := by
  rw [liveCount_append, liveCount_cons, liveCount_nil, Nat.add_zero]

/-! ### Scans -/

theorem next_code {c : Char} (hc : isLive .code c) : Mode.next .code c = .code := by
  simp only [isLive, Bool.and_eq_true, bne_iff_ne] at hc
  rw [Mode.next, if_neg hc.1.2, if_neg hc.2]

theorem liveCount_cons_eq (c : Char) (mode : Mode) (d : Char) (t : Text) :
    liveCount c mode (d :: t) = liveCount c mode [d] + liveCount c (mode.next d) t :=
  liveCount_append c mode [d] t

/-- **One step, told by counting**: unless the closing delimiters catch up, the difference stays exact. -/
theorem step_eq_some_iff (hne : opening ≠ closing) (hopen : isLive .code opening) (hclose : isLive .code closing)
    {mode mode' : Mode} {depth depth' : Nat} (hdepth : 0 < depth) {c : Char} :
    step opening closing (mode, depth) c = some (mode', depth') ↔
      mode.next c = mode' ∧ depth' + liveCount closing mode [c] = depth + liveCount opening mode [c] ∧
      liveCount closing mode [c] < depth + liveCount opening mode [c] := by
  have hlive : ∀ {x : Char}, isLive .code x → ((isLive mode c && c == x) = true ↔ mode = .code ∧ c = x) := by
    intro x hx
    rw [Bool.and_eq_true, beq_iff_eq]
    constructor
    · rintro ⟨hcode, rfl⟩
      simp only [isLive, Bool.and_eq_true, beq_iff_eq] at hcode
      exact ⟨hcode.1.1, rfl⟩
    · rintro ⟨rfl, rfl⟩
      exact ⟨hx, rfl⟩
  simp only [step, hlive hopen, hlive hclose, liveCount_cons, liveCount_nil, Nat.add_zero]
  by_cases ho : mode = .code ∧ c = opening
  · have hc : ¬ (mode = .code ∧ c = closing) := fun h => hne (ho.2.symm.trans h.2)
    rw [if_pos ho, if_pos ho, if_neg hc, Option.some.injEq, Prod.mk.injEq]
    exact and_congr_right fun _ => by omega
  · rw [if_neg ho, if_neg ho]
    by_cases hc : mode = .code ∧ c = closing
    · rw [if_pos hc, if_pos hc]
      obtain _ | _ | d := depth
      · exact absurd hdepth (Nat.lt_irrefl 0)
      · -- the partner is reached
        exact iff_of_false (by simp) fun h => absurd h.2.2 (by omega)
      · rw [Option.some.injEq, Prod.mk.injEq]
        exact and_congr_right fun _ => by omega
    · rw [if_neg hc, if_neg hc, Option.some.injEq, Prod.mk.injEq]
      exact and_congr_right fun _ => by omega

/-- **The state of a scan, told by counting**: the opening delimiters have been ahead all the time. -/
theorem scan_eq_some_iff (hne : opening ≠ closing) (hopen : isLive .code opening) (hclose : isLive .code closing)
    {mode mode' : Mode} {depth depth' : Nat} (hdepth : 0 < depth) {t : Text} :
    scan opening closing (mode, depth) t = some (mode', depth') ↔
      modeAfter mode t = mode' ∧ depth' + liveCount closing mode t = depth + liveCount opening mode t ∧
      ∀ u, u <+: t → liveCount closing mode u < depth + liveCount opening mode u := by
  induction t generalizing mode depth with
  | nil =>
    rw [scan_nil, Option.some.injEq, Prod.mk.injEq]
    constructor
    · rintro ⟨rfl, rfl⟩
      exact ⟨rfl, rfl, fun u hu => by rw [List.prefix_nil.mp hu]; exact hdepth⟩
    · rintro ⟨hmode, hcount, -⟩
      exact ⟨hmode, hcount.symm⟩
  | cons c t ih =>
    rw [scan_cons, Option.bind_eq_some_iff, liveCount_cons_eq closing, liveCount_cons_eq opening, modeAfter_cons]
    constructor
    · rintro ⟨⟨m, d⟩, hstep, hscan⟩
      obtain ⟨rfl, hcount, hlt⟩ := (step_eq_some_iff hne hopen hclose hdepth).mp hstep
      obtain ⟨hmode, hcount', hahead⟩ := (ih (by omega)).mp hscan
      refine ⟨hmode, by omega, fun u hu => ?_⟩
      rcases List.prefix_cons_iff.mp hu with rfl | ⟨v, rfl, hv⟩
      · exact hdepth
      · have hv' := hahead v hv
        rw [liveCount_cons_eq closing, liveCount_cons_eq opening]
        omega
    · rintro ⟨hmode, hcount, hahead⟩
      have hlt := hahead [c] ((List.prefix_cons_inj c).mpr List.nil_prefix)
      obtain ⟨d, hd⟩ := Nat.exists_eq_add_of_lt hlt
      refine ⟨(mode.next c, d + 1), ?_, (ih (Nat.succ_pos d)).mpr ⟨hmode, by omega, fun v hv => ?_⟩⟩
      · exact (step_eq_some_iff hne hopen hclose hdepth).mpr ⟨rfl, by omega, hlt⟩
      · have hv' := hahead (c :: v) ((List.prefix_cons_inj c).mpr hv)
        rw [liveCount_cons_eq closing, liveCount_cons_eq opening] at hv'
        omega

/-- The search goes on from the state after a character. -/
theorem closeIndexFrom?_cons {mode mode' : Mode} {depth depth' : Nat} {c : Char}
    (h : step opening closing (mode, depth) c = some (mode', depth')) (index : Nat) (t : Text) :
    closeIndexFrom? opening closing mode depth index (c :: t) =
      closeIndexFrom? opening closing mode' depth' (index + 1) t := by
  rw [closeIndexFrom?.eq_def]
  dsimp only [step] at h ⊢
  by_cases ho : (isLive mode c && c == opening) = true
  · rw [if_pos ho] at h ⊢
    cases h
    rfl
  · rw [if_neg ho] at h ⊢
    by_cases hc : (isLive mode c && c == closing) = true
    · rw [if_pos hc] at h ⊢
      obtain _ | _ | d := depth
      · cases h
      · cases h
      · cases h
        rfl
    · rw [if_neg hc] at h ⊢
      cases h
      rfl

/-- The search goes on from the state after a text. -/
theorem closeIndexFrom?_append {mode mode' : Mode} {depth depth' : Nat} {u : Text}
    (h : scan opening closing (mode, depth) u = some (mode', depth')) (index : Nat) (v : Text) :
    closeIndexFrom? opening closing mode depth index (u ++ v) =
      closeIndexFrom? opening closing mode' depth' (index + u.length) v := by
  induction u generalizing mode depth index with
  | nil =>
    obtain ⟨rfl, rfl⟩ := Prod.mk.inj (Option.some.inj h)
    rfl
  | cons c u ih =>
    rw [scan_cons, Option.bind_eq_some_iff] at h
    obtain ⟨⟨m, d⟩, hstep, hscan⟩ := h
    rw [List.cons_append, closeIndexFrom?_cons hstep, ih hscan, List.length_cons, Nat.add_assoc, Nat.add_comm 1]

/-- **The number of open delimiters is never short**: wherever the search gets, it is the difference of the two
counts, and a closing delimiter finds one that is open. -/
theorem depth_of_scan (hne : opening ≠ closing) (hopen : isLive .code opening) (hclose : isLive .code closing)
    {u v : Text} (hhead : (u ++ v).head? = some opening) {mode : Mode} {depth : Nat}
    (h : scan opening closing (.code, 0) u = some (mode, depth)) :
    closeIndex? opening closing (u ++ v) = closeIndexFrom? opening closing mode depth u.length v ∧
      depth + liveCount closing .code u = liveCount opening .code u ∧ (v.head? = some closing → 0 < depth) := by
  refine ⟨?_, ?_⟩
  · rw [closeIndex?, if_pos hhead, closeIndexFrom?_append h, Nat.zero_add]
  cases u with
  | nil =>
    obtain ⟨-, rfl⟩ := Prod.mk.inj (Option.some.inj h)
    refine ⟨rfl, fun hv => absurd (Option.some.inj (hhead.symm.trans hv)) hne⟩
  | cons c u =>
    obtain rfl : c = opening := Option.some.inj hhead
    rw [scan_opening hopen] at h
    obtain ⟨-, hcount, hahead⟩ := (scan_eq_some_iff hne hopen hclose Nat.one_pos).mp h
    have hlast := hahead u (List.prefix_refl u)
    rw [liveCount_cons, liveCount_cons, next_code hopen, if_neg fun h => hne h.2, if_pos ⟨rfl, rfl⟩]
    exact ⟨by omega, fun _ => by omega⟩

/-! ### Partners -/

/-- The counts are level at an index: up to there as many closing delimiters have been read as opening ones. -/
def Level (opening closing : Char) (t : Text) (n : Nat) : Prop :=
  liveCount opening .code (t.take (n + 1)) = liveCount closing .code (t.take (n + 1))

instance (opening closing : Char) (t : Text) : DecidablePred (Level opening closing t) :=
  fun _ => inferInstanceAs (Decidable (_ = _))

/-- The opening delimiter that starts a text counts. -/
theorem liveCount_opening_take (hopen : isLive .code opening) (u : Text) (n : Nat) :
    liveCount opening .code ((opening :: u).take (n + 1)) = 1 + liveCount opening .code (u.take n) := by
  rw [List.take_succ_cons, liveCount_cons, next_code hopen, if_pos ⟨rfl, rfl⟩]

theorem liveCount_closing_take (hne : opening ≠ closing) (hopen : isLive .code opening) (u : Text) (n : Nat) :
    liveCount closing .code ((opening :: u).take (n + 1)) = liveCount closing .code (u.take n) := by
  rw [List.take_succ_cons, liveCount_cons, next_code hopen, if_neg fun h => hne h.2, Nat.zero_add]

theorem level_cons_iff (hne : opening ≠ closing) (hopen : isLive .code opening) {u : Text} {n : Nat} :
    Level opening closing (opening :: u) n ↔
      1 + liveCount opening .code (u.take n) = liveCount closing .code (u.take n) := by
  rw [Level, liveCount_opening_take hopen, liveCount_closing_take hne hopen]

/-- With one more character a count stays as it is or grows by one. -/
theorem liveCount_take_succ (c : Char) (mode : Mode) (t : Text) (n : Nat) :
    liveCount c mode (t.take n) ≤ liveCount c mode (t.take (n + 1)) ∧
      liveCount c mode (t.take (n + 1)) ≤ liveCount c mode (t.take n) + 1 := by
  rw [List.take_add_one]
  cases t[n]? with
  | none => simp
  | some d =>
    rw [Option.toList_some, liveCount_concat]
    split <;> omega

/-- **The opening delimiters are ahead until the counts are level.** -/
theorem ahead_of_not_level (hne : opening ≠ closing) (hopen : isLive .code opening) {u : Text} {n : Nat}
    (h : ∀ m ≤ n, ¬ Level opening closing (opening :: u) m) :
    liveCount closing .code (u.take n) < 1 + liveCount opening .code (u.take n) := by
  induction n with
  | zero => simp
  | succ n ih =>
    have hahead := ih fun m hm => h m (by omega)
    have hlevel := mt (level_cons_iff hne hopen).mpr (h (n + 1) le_rfl)
    have hopening := liveCount_take_succ opening .code u n
    have hclosing := liveCount_take_succ closing .code u n
    omega

/-- The counts become level by a closing delimiter. -/
theorem getElem?_of_level (hne : opening ≠ closing) (hopen : isLive .code opening) {u : Text} {n : Nat}
    (hahead : liveCount closing .code (u.take n) < 1 + liveCount opening .code (u.take n))
    (hlevel : Level opening closing (opening :: u) (n + 1)) :
    u[n]? = some closing ∧ modeAfter .code (u.take n) = .code ∧
      liveCount opening .code (u.take n) = liveCount closing .code (u.take n) := by
  rw [level_cons_iff hne hopen, List.take_add_one] at hlevel
  cases hd : u[n]? with
  | none =>
    rw [hd, Option.toList_none, List.append_nil] at hlevel
    omega
  | some d =>
    rw [hd, Option.toList_some, liveCount_concat, liveCount_concat] at hlevel
    by_cases hc : modeAfter .code (u.take n) = .code ∧ d = closing
    · obtain ⟨hmode, rfl⟩ := hc
      rw [if_neg fun h => hne h.2.symm, if_pos ⟨hmode, rfl⟩] at hlevel
      exact ⟨rfl, hmode, by omega⟩
    · rw [if_neg hc] at hlevel
      omega

/-- **The partner of a delimiter is the first place where the counts are level.** -/
theorem closeIndex?_eq_some_iff_isLeast (hne : opening ≠ closing) (hopen : isLive .code opening)
    (hclose : isLive .code closing) {t : Text} {i : Nat} : closeIndex? opening closing t = some i ↔
      t.head? = some opening ∧ IsLeast {n | Level opening closing t n} i := by
  rw [closeIndex?_eq_some_iff hne hopen hclose]
  constructor
  · rintro ⟨inner, rest, rfl, rfl, hscan⟩
    obtain ⟨hmode, hcount, hahead⟩ := (scan_eq_some_iff hne hopen hclose Nat.one_pos).mp hscan
    refine ⟨rfl, (level_cons_iff hne hopen).mpr ?_, fun n hn => ?_⟩
    · rw [List.take_length_add_append, List.take_succ_cons, List.take_zero, liveCount_concat, liveCount_concat,
        if_neg fun h => hne h.2.symm, if_pos ⟨hmode, rfl⟩]
      omega
    · by_contra hlt
      have hlevel := (level_cons_iff hne hopen).mp hn
      rw [List.take_append_of_le_length (by omega)] at hlevel
      have hahead := hahead _ (List.take_prefix n inner)
      omega
  · rintro ⟨hhead, hlevel, hleast⟩
    obtain ⟨u, rfl⟩ := List.head?_eq_some_iff.mp hhead
    have hahead : ∀ n < i, liveCount closing .code (u.take n) < 1 + liveCount opening .code (u.take n) :=
      fun n hn => ahead_of_not_level hne hopen fun m hm hl => absurd (hleast hl) (by omega)
    obtain _ | i := i
    · -- the first character is an opening delimiter
      exact absurd ((level_cons_iff hne hopen).mp hlevel) (by simp)
    obtain ⟨hget, hmode, hcount⟩ := getElem?_of_level hne hopen (hahead i (by omega)) hlevel
    obtain ⟨hlt, hget⟩ := List.getElem?_eq_some_iff.mp hget
    refine ⟨u.take i, u.drop (i + 1), ?_, ?_, ?_⟩
    · rw [← hget, List.getElem_cons_drop, List.take_append_drop]
    · rw [List.length_take_of_le hlt.le]
    · refine (scan_eq_some_iff hne hopen hclose Nat.one_pos).mpr ⟨hmode, by omega, fun v hv => ?_⟩
      have hle : v.length ≤ i := hv.length_le.trans (List.length_take_le i u)
      rw [List.prefix_iff_eq_take.mp (hv.trans (List.take_prefix i u))]
      exact hahead v.length (by omega)

/-- A delimiter has a partner if the closing delimiters catch up. -/
theorem exists_closeIndex? (hne : opening ≠ closing) (hopen : isLive .code opening) (hclose : isLive .code closing)
    {t : Text} (hhead : t.head? = some opening) {n : Nat}
    (h : liveCount opening .code (t.take (n + 1)) ≤ liveCount closing .code (t.take (n + 1))) :
    ∃ i ≤ n, closeIndex? opening closing t = some i := by
  have hlevel : ∃ m ≤ n, Level opening closing t m := by
    by_contra hnot
    obtain ⟨u, rfl⟩ := List.head?_eq_some_iff.mp hhead
    have hahead := ahead_of_not_level hne hopen fun m hm hl => hnot ⟨m, hm, hl⟩
    rw [liveCount_opening_take hopen, liveCount_closing_take hne hopen] at h
    omega
  obtain ⟨m, hm, hlevel⟩ := hlevel
  have hfirst := Nat.isLeast_find ⟨m, hlevel⟩
  exact ⟨_, (hfirst.2 hlevel).trans hm, (closeIndex?_eq_some_iff_isLeast hne hopen hclose).mpr ⟨hhead, hfirst⟩⟩

/-- **Partners are nested**: a delimiter that is opened between two partners is closed between them. -/
theorem exists_closeIndex?_drop (hne : opening ≠ closing) (hopen : isLive .code opening)
    (hclose : isLive .code closing) {t : Text} {i : Nat} (h : closeIndex? opening closing t = some i) {q : Nat}
    (hpos : 0 < q) (hlt : q < i) (hget : t[q]? = some opening) (hmode : modeAfter .code (t.take q) = .code) :
    ∃ j, closeIndex? opening closing (t.drop q) = some j ∧ q + j < i := by
  obtain ⟨hhead, hlevel, hleast⟩ := (closeIndex?_eq_some_iff_isLeast hne hopen hclose).mp h
  obtain ⟨u, rfl⟩ := List.head?_eq_some_iff.mp hhead
  obtain ⟨p, rfl⟩ : ∃ p, q = p + 1 := ⟨q - 1, by omega⟩
  obtain ⟨n, rfl⟩ : ∃ n, i = p + 1 + n := ⟨i - (p + 1), by omega⟩
  have hahead : liveCount closing .code (u.take p) < 1 + liveCount opening .code (u.take p) :=
    ahead_of_not_level hne hopen fun m hm hl => absurd (hleast hl) (by omega)
  rw [List.take_succ_cons, modeAfter_cons, next_code hopen] at hmode
  have hsplit : ∀ c, liveCount c .code (u.take (p + (n + 1))) =
      liveCount c .code (u.take p) + liveCount c .code ((u.drop p).take (n + 1)) := by
    intro c
    rw [List.take_add, liveCount_append, hmode]
  have hlevel' := (level_cons_iff hne hopen).mp hlevel
  rw [show p + 1 + n = p + (n + 1) by omega, hsplit, hsplit] at hlevel'
  rw [List.drop_succ_cons]
  have hhead' : (u.drop p).head? = some opening := by rwa [List.head?_drop, ← List.getElem?_cons_succ]
  obtain ⟨j, hj, hclosed⟩ := exists_closeIndex? hne hopen hclose hhead' (n := n) (by omega)
  -- at the outer partner the inner delimiters are overtaken, so they were level before
  have hlevel'' : Level opening closing (u.drop p) j :=
    ((closeIndex?_eq_some_iff_isLeast hne hopen hclose).mp hclosed).2.1
  have hne' : j ≠ n := by
    rintro rfl
    rw [Level] at hlevel''
    omega
  exact ⟨j, hclosed, by omega⟩

end Freestanding.Region
