import Mathlib.Algebra.BigOperators.Fin
import Mathlib.Algebra.Order.BigOperators.Group.Finset
import Mathlib.Data.ENat.Lattice

/-!
# KernelPanic.Lib.Relaxation

Distances to a set of targets by relaxation.  Every node has a label, an upper
bound of its distance that is cut off at `cap`; a node whose label has changed is
pending.  Visiting a pending node gives each of its neighbours with a larger
label the node's own label and one, and makes it pending, whether or not that
was a change.

Any order of visits ends, and ends with the distances.  It ends although
unchanged labels are marked again: a visit to a node at `v` marks nodes at
`v + 1` only, so where no label changes the pending nodes move towards `cap`
(`visit_decreases`).

Nothing here names a particular graph.
-/

namespace Relaxation

variable {α : Type*} [DecidableEq α]

/-! ## distance -/

/-- A path of `k` steps leads from the node to a target. -/
inductive Reaches (adj : α → α → Prop) (targets : Set α) : ℕ → α → Prop
  | target {c : α} (h : c ∈ targets) : Reaches adj targets 0 c
  | step {k : ℕ} {c d : α} (h : adj c d) (hd : Reaches adj targets k d) :
      Reaches adj targets (k + 1) c

/-- The length of a shortest path to a target, `⊤` when there is none. -/
noncomputable def distance (adj : α → α → Prop) (targets : Set α) (c : α) : ℕ∞ :=
  ⨅ k : { k // Reaches adj targets k c }, (k : ℕ∞)

/-! ## shortest paths -/

section Distance

variable {α : Type*} {adj adj' : α → α → Prop} {targets : Set α} {c d : α} {k : ℕ}

theorem Reaches.distance_le (h : Reaches adj targets k c) : distance adj targets c ≤ k :=
  iInf_le (fun k : { k // Reaches adj targets k c } => (k : ℕ∞)) ⟨k, h⟩

/-- A finite distance is the length of a path. -/
theorem exists_reaches (h : distance adj targets c ≠ ⊤) :
    ∃ k : ℕ, distance adj targets c = k ∧ Reaches adj targets k c := by
  have hne : Nonempty { k // Reaches adj targets k c } := ENat.iInf_natCast_ne_top.mp h
  obtain ⟨⟨k, hk⟩, heq⟩ := ENat.exists_eq_iInf
    fun k : { k // Reaches adj targets k c } => (k : ℕ∞)
  exact ⟨k, heq.symm, hk⟩

theorem Reaches.mono (hadj : ∀ c d, adj c d → adj' c d) (h : Reaches adj targets k c) :
    Reaches adj' targets k c := by
  induction h with
  | target h => exact .target h
  | step h _ ih => exact .step (hadj _ _ h) ih

/-- With more edges nothing is further away. -/
theorem distance_mono (hadj : ∀ c d, adj c d → adj' c d) (c : α) :
    distance adj' targets c ≤ distance adj targets c :=
  le_iInf fun k => (k.2.mono hadj).distance_le

theorem distance_eq_zero : distance adj targets c = 0 ↔ c ∈ targets := by
  constructor
  · intro h
    obtain ⟨k, hk, hpath⟩ := exists_reaches (h ▸ ENat.zero_ne_top)
    rw [h] at hk
    obtain rfl : k = 0 := Nat.cast_eq_zero.mp hk.symm
    cases hpath with
    | target hc => exact hc
  · intro hc
    exact nonpos_iff_eq_zero.mp (Reaches.target hc).distance_le

/-- A step changes the distance by no more than one. -/
theorem distance_le_succ (h : adj c d) :
    distance adj targets c ≤ distance adj targets d + 1 := by
  by_cases hd : distance adj targets d = ⊤
  · simp [hd]
  · obtain ⟨k, hk, hpath⟩ := exists_reaches hd
    rw [hk]
    exact_mod_cast (hpath.step h).distance_le

/-- A shortest path begins with a step that comes closer. -/
theorem exists_closer (h : distance adj targets c = (k + 1 : ℕ)) :
    ∃ d, adj c d ∧ distance adj targets d = k := by
  obtain ⟨k', hk', hpath⟩ := exists_reaches (h ▸ ENat.natCast_ne_top _)
  obtain rfl : k + 1 = k' := Nat.cast_injective (h.symm.trans hk')
  cases hpath with
  | step hadj hd =>
      obtain ⟨j, hj, -⟩ := exists_reaches (ne_top_of_le_ne_top (ENat.natCast_ne_top k) hd.distance_le)
      have hle := hd.distance_le
      have hge : distance adj targets c ≤ distance adj targets _ + 1 := distance_le_succ hadj
      rw [h, hj] at hge
      rw [hj] at hle
      norm_cast at hge hle
      exact ⟨_, hadj, hj.trans (congrArg _ (by omega))⟩

/-- Where every step changes the colour, the colour tells whether the length of a
path to targets of one colour is even. -/
theorem Reaches.even_iff {colour : α → Bool} {b : Bool}
    (hadj : ∀ c d, adj c d → colour c ≠ colour d) (htargets : ∀ c ∈ targets, colour c = b)
    (h : Reaches adj targets k c) : Even k ↔ colour c = b := by
  induction h with
  | target h => simp [htargets _ h]
  | step h _ ih =>
      rw [Nat.even_add_one, ih, Bool.eq_not_of_ne (hadj _ _ h)]
      generalize colour _ = b'
      cases b <;> cases b' <;> simp

/-- In such a graph no step is between two nodes at the same distance. -/
theorem distance_ne {colour : α → Bool} {b : Bool}
    (hadj : ∀ c d, adj c d → colour c ≠ colour d) (htargets : ∀ c ∈ targets, colour c = b)
    (h : adj c d) (hc : distance adj targets c ≠ ⊤) :
    distance adj targets c ≠ distance adj targets d := by
  intro heq
  obtain ⟨k, hk, hpath⟩ := exists_reaches hc
  obtain ⟨k', hk', hpath'⟩ := exists_reaches (heq ▸ hc)
  obtain rfl : k = k' := Nat.cast_injective (hk.symm.trans (heq.trans hk'))
  have hcolour := (hpath.even_iff hadj htargets).symm.trans (hpath'.even_iff hadj htargets)
  rw [Bool.eq_not_of_ne (hadj c d h)] at hcolour
  generalize colour d = b' at hcolour
  revert hcolour
  cases b <;> cases b' <;> simp

/-- Where every step can be taken back, a path can be walked the other way round. -/
theorem Reaches.reverse (hadj : ∀ c d, adj c d → adj d c) (h : Reaches adj {d} k c) {j : ℕ}
    (hc : Reaches adj targets j c) : Reaches adj targets (k + j) d := by
  induction h generalizing j with
  | target h =>
      obtain rfl := Set.mem_singleton_iff.mp h
      rwa [Nat.zero_add]
  | step h _ ih =>
      rw [Nat.succ_add_eq_add_succ]
      exact ih (.step (hadj _ _ h) hc)

/-- There is a node at every smaller distance, so that a finite distance is less
than the number of nodes. -/
theorem distance_lt_card {cells : Finset α} (hadj : ∀ c d, adj c d → c ∈ cells)
    (htargets : ∀ c ∈ targets, c ∈ cells) (h : distance adj targets c ≠ ⊤) :
    distance adj targets c < cells.card := by
  classical
  obtain ⟨k, hk, -⟩ := exists_reaches h
  suffices hall : ∀ k c, distance adj targets c = (k : ℕ) →
      k < (cells.filter fun d => distance adj targets d ≤ k).card by
    rw [hk]
    exact_mod_cast (hall k c hk).trans_le (Finset.card_filter_le _ _)
  clear hk h
  intro k
  induction k with
  | zero =>
      intro c hc
      refine Finset.card_pos.mpr ⟨c, Finset.mem_filter.mpr ⟨htargets c ?_, hc.le⟩⟩
      exact distance_eq_zero.mp (by simpa using hc)
  | succ k ih =>
      intro c hc
      obtain ⟨d, hcd, hd⟩ := exists_closer hc
      refine (Nat.succ_le_of_lt (ih d hd)).trans_lt (Finset.card_lt_card ⟨fun b hb => ?_, fun hsub => ?_⟩)
      · simp only [Finset.mem_filter] at hb ⊢
        exact ⟨hb.1, hb.2.trans (by exact_mod_cast Nat.le_succ k)⟩
      · have hmem := hsub (Finset.mem_filter.mpr ⟨hadj c d hcd, hc.le⟩)
        rw [Finset.mem_filter, hc] at hmem
        exact absurd hmem.2 (by exact_mod_cast Nat.not_succ_le_self k)

end Distance

/-! ## labels -/

/-- Labels, and the pending nodes. -/
structure Labels (α : Type*) where
  label : α → ℕ
  pending : Finset α

/-- Only the targets are labelled, and all of them are pending. -/
def start (cap : ℕ) (targets : Finset α) : Labels α :=
  ⟨fun c => if c ∈ targets then 0 else cap, targets⟩

/-- A neighbour `d` of a node with label `v`. -/
def relax (v : ℕ) (s : Labels α) (d : α) : Labels α :=
  if v < s.label d then
    { label := Function.update s.label d (v + 1), pending := insert d s.pending }
  else s

/-- A visit to `c`. -/
def visit (neighbours : α → List α) (s : Labels α) (c : α) : Labels α :=
  (neighbours c).foldl (relax (s.label c)) { s with pending := s.pending.erase c }

variable {adj : α → α → Prop} {targets : Set α} {cap v : ℕ} {s : Labels α} {c d : α}
  {neighbours : α → List α} {cells : Finset α}

/-- What every visit keeps, as to the labels. -/
structure Sound (adj : α → α → Prop) (targets : Set α) (cap : ℕ) (s : Labels α) : Prop where
  le_cap : ∀ c, s.label c ≤ cap
  target : ∀ c ∈ targets, s.label c = 0
  reaches : ∀ c, s.label c < cap → Reaches adj targets (s.label c) c
  /-- A node that is not pending has relaxed its neighbours. -/
  relaxed : ∀ c, c ∉ s.pending → ∀ d, adj d c → s.label d ≤ s.label c + 1

/-- One more target. -/
theorem update_start (ts : Finset α) (d : α) :
    ({ label := Function.update (start cap ts).label d 0,
       pending := insert d (start cap ts).pending } : Labels α) = start cap (insert d ts) := by
  unfold start
  congr 1
  funext c
  simp only [Function.update_apply, Finset.mem_insert]
  by_cases hc : c = d <;> simp [hc]

theorem Sound.start (ts : Finset α) : Sound adj ts cap (start cap ts) := by
  constructor
  · intro c
    unfold Relaxation.start
    dsimp only
    split <;> omega
  · exact fun c hc => if_pos (Finset.mem_coe.mp hc)
  · intro c hlt
    have hc : c ∈ ts := by
      by_contra hc
      exact absurd hlt (by simp [Relaxation.start, hc])
    have hzero : (Relaxation.start cap ts).label c = 0 := if_pos hc
    rw [hzero]
    exact .target (Finset.mem_coe.mpr hc)
  · intro c hc d _
    have hcap : (Relaxation.start cap ts).label c = cap := if_neg hc
    rw [hcap]
    unfold Relaxation.start
    dsimp only
    split <;> omega

omit [DecidableEq α] in
theorem Reaches.le_label (hs : Sound adj targets cap s) (hdone : s.pending = ∅) {k : ℕ}
    (h : Reaches adj targets k c) : s.label c ≤ k := by
  induction h with
  | target h => exact (hs.target _ h).le
  | step h _ ih =>
      have hrelaxed := hs.relaxed _ (by simp [hdone]) _ h
      omega

omit [DecidableEq α] in
/-- **With nothing pending the labels are the distances.** -/
theorem Sound.label_eq (hs : Sound adj targets cap s) (hdone : s.pending = ∅) (c : α) :
    (s.label c : ℕ∞) = min (cap : ℕ∞) (distance adj targets c) := by
  apply le_antisymm
  · rw [le_min_iff, Nat.cast_le]
    exact ⟨hs.le_cap c, le_iInf fun k => Nat.cast_le.mpr (k.2.le_label hs hdone)⟩
  · by_cases hcap : s.label c < cap
    · exact (min_le_right _ _).trans (iInf_le_of_le ⟨_, hs.reaches c hcap⟩ le_rfl)
    · exact (min_le_left _ _).trans (Nat.cast_le.mpr (not_lt.mp hcap))

/-! ## a visit -/

theorem foldl_relax_label (ds : List α) :
    (ds.foldl (relax v) s).label d =
      if d ∈ ds ∧ v < s.label d then v + 1 else s.label d := by
  induction ds generalizing s with
  | nil => simp
  | cons b ds ih =>
      rw [List.foldl_cons, ih, relax]
      by_cases hb : v < s.label b
      · rw [if_pos hb]
        by_cases hd : d = b
        · subst hd
          simp [hb]
        · simp [hd]
      · rw [if_neg hb]
        have hne : v < s.label d → d ≠ b := fun hd heq => hb (heq ▸ hd)
        grind

theorem mem_foldl_relax (ds : List α) :
    d ∈ (ds.foldl (relax v) s).pending ↔ d ∈ s.pending ∨ d ∈ ds ∧ v < s.label d := by
  induction ds generalizing s with
  | nil => simp
  | cons b ds ih =>
      rw [List.foldl_cons, ih, relax]
      by_cases hb : v < s.label b
      · rw [if_pos hb]
        by_cases hd : d = b
        · subst hd
          simp [hb]
        · simp [hd]
      · rw [if_neg hb]
        have hne : v < s.label d → d ≠ b := fun hd heq => hb (heq ▸ hd)
        grind

/-- The labels after a visit. -/
theorem visit_label : (visit neighbours s c).label d =
    if d ∈ neighbours c ∧ s.label c < s.label d then s.label c + 1 else s.label d :=
  foldl_relax_label _

/-- The nodes pending after a visit. -/
theorem mem_visit : d ∈ (visit neighbours s c).pending ↔
    d ≠ c ∧ d ∈ s.pending ∨ d ∈ neighbours c ∧ s.label c < s.label d := by
  rw [visit, mem_foldl_relax, Finset.mem_erase]

theorem visit_label_le : (visit neighbours s c).label d ≤ s.label d := by
  rw [visit_label]
  split <;> omega

theorem visit_label_self : (visit neighbours s c).label c = s.label c := by
  rw [visit_label, if_neg (fun h => absurd h.2 (Nat.lt_irrefl _))]

/-- **A visit keeps the labels sound.** -/
theorem Sound.visit (hs : Sound adj targets cap s) (hadj : ∀ c d, d ∈ neighbours c ↔ adj d c) :
    Sound adj targets cap (visit neighbours s c) := by
  constructor
  · exact fun d => visit_label_le.trans (hs.le_cap d)
  · intro d hd
    exact Nat.le_zero.mp (hs.target d hd ▸ visit_label_le)
  · intro d hlt
    rw [visit_label] at hlt ⊢
    split at hlt
    · next hd =>
        rw [if_pos hd]
        exact .step ((hadj c d).mp hd.1) (hs.reaches c (by omega))
    · next hd =>
        rw [if_neg hd]
        exact hs.reaches d hlt
  · intro b hb d hd
    by_cases hbc : b = c
    · subst hbc
      rw [visit_label_self, visit_label]
      have hmem := (hadj b d).mpr hd
      split
      · exact le_rfl
      · next hnot =>
          have hle : s.label d ≤ s.label b := not_lt.mp fun hlt => hnot ⟨hmem, hlt⟩
          exact Nat.le_succ_of_le hle
    · rw [mem_visit] at hb
      have hsame : (Relaxation.visit neighbours s c).label b = s.label b := by
        rw [visit_label, if_neg fun h => hb (.inr h)]
      rw [hsame]
      exact visit_label_le.trans (hs.relaxed b (fun h => hb (.inl ⟨hbc, h⟩)) d hd)

/-! ## termination -/

/-- How much is left to lower. -/
def total (cells : Finset α) (s : Labels α) : ℕ := ∑ d ∈ cells, s.label d

/-- A pending node weighs more than its neighbours that a visit could mark. -/
def weight (degree cap : ℕ) (s : Labels α) : ℕ := ∑ d ∈ s.pending, (degree + 1) ^ (cap - s.label d)

variable {degree : ℕ}

omit [DecidableEq α] in
/-- No more than `degree` nodes whose labels are larger by one weigh less than the one
node they stand in for. -/
theorem sum_marked_lt {label : α → ℕ} {marked : Finset α} (hmarked : ∀ d ∈ marked, label d = v + 1)
    (hcap : ∀ d ∈ marked, label d ≤ cap) (hcard : marked.card ≤ degree) :
    ∑ d ∈ marked, (degree + 1) ^ (cap - label d) < (degree + 1) ^ (cap - v) := by
  obtain hempty | ⟨b, hb⟩ := marked.eq_empty_or_nonempty
  · rw [hempty, Finset.sum_empty]
    exact Nat.pow_pos (Nat.succ_pos degree)
  · have hb' := hcap b hb
    rw [hmarked b hb] at hb'
    have hpow : (degree + 1) ^ (cap - v) = (degree + 1) * (degree + 1) ^ (cap - (v + 1)) := by
      rw [← pow_succ']
      congr 1
      omega
    calc ∑ d ∈ marked, (degree + 1) ^ (cap - label d)
        = marked.card * (degree + 1) ^ (cap - (v + 1)) := by
          rw [Finset.sum_congr rfl fun d hd => by rw [hmarked d hd], Finset.sum_const, smul_eq_mul]
      _ ≤ degree * (degree + 1) ^ (cap - (v + 1)) := Nat.mul_le_mul_right _ hcard
      _ < (degree + 1) * (degree + 1) ^ (cap - (v + 1)) :=
          Nat.mul_lt_mul_of_pos_right (Nat.lt_succ_self _) (Nat.pow_pos (Nat.succ_pos degree))
      _ = (degree + 1) ^ (cap - v) := hpow.symm

/-- **A visit lowers a label, or moves the pending nodes towards `cap`.** -/
theorem visit_decreases (hs : Sound adj targets cap s) (hc : c ∈ s.pending)
    (hcells : ∀ d ∈ neighbours c, d ∈ cells) (hdegree : (neighbours c).length ≤ degree) :
    total cells (visit neighbours s c) < total cells s ∨
      total cells (visit neighbours s c) = total cells s ∧
        weight degree cap (visit neighbours s c) < weight degree cap s := by
  by_cases hlower : ∃ d ∈ cells, (visit neighbours s c).label d < s.label d
  · left
    exact Finset.sum_lt_sum (fun d _ => visit_label_le) hlower
  · right
    have hsame : ∀ d, (visit neighbours s c).label d = s.label d := by
      intro d
      by_cases hd : d ∈ cells
      · exact le_antisymm visit_label_le (not_lt.mp fun hlt => hlower ⟨d, hd, hlt⟩)
      · rw [visit_label, if_neg fun h => hd (hcells d h.1)]
    refine ⟨Finset.sum_congr rfl fun d _ => hsame d, ?_⟩
    let marked := (neighbours c).toFinset.filter fun d => s.label c < s.label d
    have hmarked : ∀ d ∈ marked, s.label d = s.label c + 1 := by
      intro d hd
      obtain ⟨hmem, hlt⟩ := Finset.mem_filter.mp hd
      have hlabel := hsame d
      rw [visit_label, if_pos ⟨List.mem_toFinset.mp hmem, hlt⟩] at hlabel
      exact hlabel.symm
    have hsub : (visit neighbours s c).pending ⊆ s.pending.erase c ∪ marked := by
      intro d hd
      rw [mem_visit] at hd
      simp only [Finset.mem_union, Finset.mem_erase, marked, Finset.mem_filter, List.mem_toFinset]
      exact hd
    have hcard : marked.card ≤ degree :=
      (Finset.card_filter_le _ _).trans ((List.toFinset_card_le _).trans hdegree)
    have hless := sum_marked_lt hmarked (fun d _ => hs.le_cap d) hcard
    calc weight degree cap (visit neighbours s c)
        = ∑ d ∈ (visit neighbours s c).pending, (degree + 1) ^ (cap - s.label d) :=
          Finset.sum_congr rfl fun d _ => by rw [hsame]
      _ ≤ ∑ d ∈ s.pending.erase c ∪ marked, (degree + 1) ^ (cap - s.label d) :=
          Finset.sum_le_sum_of_subset hsub
      _ ≤ ∑ d ∈ s.pending.erase c, (degree + 1) ^ (cap - s.label d) +
            ∑ d ∈ marked, (degree + 1) ^ (cap - s.label d) := by
          rw [← Finset.sum_union_inter]
          exact Nat.le_add_right _ _
      _ < ∑ d ∈ s.pending.erase c, (degree + 1) ^ (cap - s.label d) +
            (degree + 1) ^ (cap - s.label c) := Nat.add_lt_add_left hless _
      _ = weight degree cap s := Finset.sum_erase_add _ _ hc

/-- **Any order of visits ends.**  What holds of sound labels whenever it holds
after every visit holds of all sound labels. -/
theorem Sound.induction (hs : Sound adj targets cap s)
    (hadj : ∀ c d, d ∈ neighbours c ↔ adj d c) (hcells : ∀ c, ∀ d ∈ neighbours c, d ∈ cells)
    (hdegree : ∀ c, (neighbours c).length ≤ degree) {P : Labels α → Prop}
    (hstep : ∀ s, Sound adj targets cap s →
      (∀ c ∈ s.pending, P (Relaxation.visit neighbours s c)) → P s) : P s := by
  generalize ht : total cells s = t
  generalize hw : weight degree cap s = w
  induction t using Nat.strong_induction_on generalizing s w with
  | _ t iht =>
      induction w using Nat.strong_induction_on generalizing s with
      | _ w ihw =>
          refine hstep s hs fun c hc => ?_
          have hvisit : Sound adj targets cap (Relaxation.visit neighbours s c) := hs.visit hadj
          obtain hlt | ⟨heq, hlt⟩ := visit_decreases hs hc (hcells c) (hdegree c)
          · exact iht _ (ht ▸ hlt) hvisit rfl _ rfl
          · exact ihw _ (hw ▸ hlt) hvisit (heq.trans ht) rfl

end Relaxation
