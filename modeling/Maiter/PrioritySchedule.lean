import Maiter.Iterators

/-!
# The priority schedule selects the best work

The threshold of a `ScheduledIterator` is the priority of an entry of a random sample.

* `mem_scan_iff`, `pairwise_scan`: the positions that a scan of the table lists;
* `Selects`: the three ways to select, with what the sample guarantees of the threshold;
* `ScheduledIterator.new_selects`: the constructor returns and selects in one of them, whatever is
  sampled;
* `priority_schedule`: the positions are increasing and in use, nothing of lower priority is
  preferred, and some work is scheduled if there is any.
-/

namespace Maiter

variable {K V D : Type} {t : StateTable K V D}

/-! ### The positions that are scanned -/

theorem mem_scan_iff (hlen : t.buckets.length = t.size) {p : Bucket K V D → Bool} {b : ℕ} :
    b ∈ scan t p ↔ ∃ c, t.buckets[b]? = some c ∧ c.inUse = true ∧ p c = true := by
  unfold scan
  rw [List.mem_filter, List.mem_range, ← hlen]
  constructor
  · rintro ⟨hb, hany⟩
    rw [List.getElem?_eq_getElem hb, Option.any_some, Bool.and_eq_true] at hany
    exact ⟨_, List.getElem?_eq_getElem hb, hany⟩
  · rintro ⟨c, hc, hu, hp⟩
    refine ⟨(List.getElem?_eq_some_iff.1 hc).1, ?_⟩
    rw [hc, Option.any_some, hu, hp]
    rfl

theorem pairwise_scan (t : StateTable K V D) (p : Bucket K V D → Bool) :
    (scan t p).Pairwise (· < ·) := List.pairwise_lt_range.filter _

theorem usable_iff {pos : ℕ} :
    usable t pos = true ↔ ∃ c, t.buckets[pos]? = some c ∧ c ∈ t.stored := by
  unfold usable
  rw [Option.any_eq_true]
  constructor
  · rintro ⟨c, hc, hu⟩
    exact ⟨c, hc, StateTable.mem_stored.2 ⟨List.mem_of_getElem? hc, hu⟩⟩
  · rintro ⟨c, hc, hst⟩
    exact ⟨c, hc, (StateTable.mem_stored.1 hst).2⟩

/-! ### The cut index -/

theorem truncate_eq_floor {q : ℚ} (hq : 0 ≤ q) : truncate q = ⌊q⌋ := by
  have hnum : 0 ≤ q.num := Rat.num_nonneg.2 hq
  rw [truncate, Int.tdiv_eq_ediv_of_nonneg hnum, Rat.floor_def']

/-- The cut index is a position of the sample. -/
theorem cutIndex_bounds {schedulePortion : ℚ} (h0 : 0 ≤ schedulePortion)
    (h1 : schedulePortion < 1) :
    0 ≤ truncate (sampleSize * schedulePortion) ∧
      truncate (sampleSize * schedulePortion) < sampleSize := by
  have hpos : (0 : ℚ) < sampleSize := by norm_num [sampleSize]
  have hcut : 0 ≤ sampleSize * schedulePortion := mul_nonneg hpos.le h0
  rw [truncate_eq_floor hcut]
  refine ⟨Int.floor_nonneg.2 hcut, Int.floor_lt.2 ?_⟩
  calc (sampleSize : ℚ) * schedulePortion < sampleSize * 1 := by gcongr
    _ = ((sampleSize : ℤ) : ℚ) := by norm_num

/-! ### The ways to select -/

section Selection

variable [LinearOrder V] {kernel : IterateKernel K V D}

/-- How the constructor selects entries: all of them, or those with a delta whose priority reaches
that of a stored entry, or exceeds it if that of another stored entry does. -/
inductive Selects (kernel : IterateKernel K V D) (t : StateTable K V D) :
    (Bucket K V D → Bool) → Prop
  | all : Selects kernel t fun _ => true
  | reaching {cut : Bucket K V D} : cut ∈ t.stored →
      Selects kernel t fun c => c.v1 ≠ kernel.defaultV && cut.priority ≤ c.priority
  | exceeding {cut top : Bucket K V D} : top ∈ t.stored → cut.priority < top.priority →
      Selects kernel t fun c => c.v1 ≠ kernel.defaultV && cut.priority < c.priority

/-- What is selected is upward closed. -/
theorem Selects.upward {p : Bucket K V D → Bool} (h : Selects kernel t p) {c d : Bucket K V D}
    (hc : p c = true) (hd : d.v1 ≠ kernel.defaultV) (hle : c.priority ≤ d.priority) :
    p d = true := by
  cases h with
  | all => rfl
  | reaching _ =>
    simp only [Bool.and_eq_true, decide_eq_true_eq] at hc ⊢
    exact ⟨hd, hc.2.trans hle⟩
  | exceeding _ _ =>
    simp only [Bool.and_eq_true, decide_eq_true_eq] at hc ⊢
    exact ⟨hd, hc.2.trans_le hle⟩

/-- Some stored entry is selected, if one has a delta: where the threshold is positive, the entry
that it was taken from, or the one above it, is not idle. -/
theorem Selects.exists_stored [Zero V] {p : Bucket K V D → Bool} (h : Selects kernel t p)
    (hpri : ∀ c ∈ t.stored, 0 ≤ c.priority ∧ (c.v1 = kernel.defaultV → c.priority = 0))
    {d : Bucket K V D} (hst : d ∈ t.stored) (hd : d.v1 ≠ kernel.defaultV) :
    ∃ c ∈ t.stored, p c = true := by
  have hbusy : ∀ c ∈ t.stored, 0 < c.priority → c.v1 ≠ kernel.defaultV := fun c hc hlt hidle =>
    hlt.ne' ((hpri c hc).2 hidle)
  cases h with
  | all => exact ⟨d, hst, rfl⟩
  | @reaching cut hcut =>
    rcases (hpri cut hcut).1.eq_or_lt with hzero | hlt
    · refine ⟨d, hst, ?_⟩
      simp only [Bool.and_eq_true, decide_eq_true_eq]
      exact ⟨hd, by rw [← hzero]; exact (hpri d hst).1⟩
    · refine ⟨cut, hcut, ?_⟩
      simp only [Bool.and_eq_true, decide_eq_true_eq]
      exact ⟨hbusy cut hcut hlt, le_rfl⟩
  | @exceeding cut top htop hlt =>
    by_cases hzero : 0 < top.priority
    · refine ⟨top, htop, ?_⟩
      simp only [Bool.and_eq_true, decide_eq_true_eq]
      exact ⟨hbusy top htop hzero, hlt⟩
    · -- the threshold is negative, so `d` exceeds it
      refine ⟨d, hst, ?_⟩
      simp only [Bool.and_eq_true, decide_eq_true_eq]
      exact ⟨hd, hlt.trans_le ((not_lt.1 hzero).trans (hpri d hst).1)⟩

end Selection

/-! ### The constructor -/

section Scheduled

variable [LinearOrder V] {kernel : IterateKernel K V D} {schedulePortion : ℚ} {draws : List ℕ}

variable (kernel) in
/-- **Whatever is sampled**, the constructor returns and selects in one of the three ways. -/
theorem ScheduledIterator.new_selects (threadInterval : List KVVPair) (numThreads : ℕ)
    (h0 : 0 ≤ schedulePortion) (h1 : schedulePortion < 1)
    (hdraws : sampleSize < t.entries → sampleSize ≤ (draws.filter (usable t)).length) :
    ∃ it threadInterval' p, ScheduledIterator.new kernel schedulePortion draws t threadInterval
        numThreads false = .ok (it, threadInterval') ∧
      it.scheduledPos = scan t p ∧ Selects kernel t p := by
  by_cases hent : t.entries ≤ sampleSize
  · refine ⟨⟨scan t fun _ => true, false⟩,
      divide numThreads (scan t fun _ => true).length threadInterval, fun _ => true, ?_, rfl, .all⟩
    simp only [ScheduledIterator.new, if_pos hent, Bool.and_false, Bool.false_eq_true, if_false]
    rfl
  obtain ⟨priority, hpri⟩ : ∃ f : ℕ → V, ∀ i,
      (t.buckets[i]?).elim kernel.defaultV (·.priority) = f i := ⟨_, fun _ => rfl⟩
  set sampled := (draws.filter (usable t)).take sampleSize with hsampled
  set sorted := sampled.mergeSort fun a b => priority b ≤ priority a with hsorted
  have hlen : sampled.length = sampleSize :=
    List.length_take_of_le (hdraws (not_le.1 hent))
  have hsortlen : sorted.length = sampleSize := by rw [hsorted, List.length_mergeSort, hlen]
  -- a sampled position holds a stored entry, whose priority is read
  have hstored : ∀ i ∈ sorted, ∃ c ∈ t.stored, priority i = c.priority := by
    intro i hi
    have hmem := List.mem_of_mem_take (List.mem_mergeSort.1 hi)
    obtain ⟨c, hc, hst⟩ := usable_iff.1 (List.mem_filter.1 hmem).2
    exact ⟨c, hst, by rw [← hpri, hc, Option.elim_some]⟩
  obtain ⟨hcut0, hcut1⟩ := cutIndex_bounds h0 h1
  set cutIndex := truncate (sampleSize * schedulePortion) with hcutIndex
  have hcutlt : cutIndex.toNat < sorted.length := by omega
  have htoplt : 0 < sorted.length := by omega
  obtain ⟨cut, hcutst, hcut⟩ := hstored _ (List.getElem_mem hcutlt)
  obtain ⟨top, htopst, htop⟩ := hstored _ (List.getElem_mem htoplt)
  have hle : cut.priority ≤ top.priority := by
    rw [← hcut, ← htop]
    rcases Nat.eq_zero_or_pos cutIndex.toNat with hzero | hpos
    · simp only [hzero, le_refl]
    · have hpw : sorted.Pairwise fun a b => decide (priority b ≤ priority a) = true := by
        refine List.pairwise_mergeSort (fun a b c hab hbc => ?_) (fun a b => ?_) sampled
        · rw [decide_eq_true_eq] at hab hbc ⊢
          exact hbc.trans hab
        · simpa using le_total (priority b) (priority a)
      simpa using List.pairwise_iff_getElem.1 hpw 0 cutIndex.toNat htoplt hcutlt hpos
  have hnew : ScheduledIterator.new kernel schedulePortion draws t threadInterval numThreads false
      = if cutIndex = 0 ∨ top.priority = cut.priority then
          .ok (⟨scan t fun c => c.v1 ≠ kernel.defaultV && cut.priority ≤ c.priority, false⟩,
            divide numThreads (scan t fun c => c.v1 ≠ kernel.defaultV &&
              cut.priority ≤ c.priority).length threadInterval)
        else
          .ok (⟨scan t fun c => c.v1 ≠ kernel.defaultV && cut.priority < c.priority, false⟩,
            divide numThreads (scan t fun c => c.v1 ≠ kernel.defaultV &&
              cut.priority < c.priority).length threadInterval) := by
    rw [← hcut, ← htop]
    simp only [ScheduledIterator.new, if_neg hent, Bool.and_false, Bool.false_eq_true, if_false,
      hpri, ← hsampled, ← hsorted, ← hcutIndex, hlen, lt_irrefl, if_neg (not_lt.2 hcut0),
      List.getElem?_eq_getElem hcutlt, List.getElem?_eq_getElem htoplt]
    rfl
  rw [hnew]
  split_ifs with hbranch
  · exact ⟨_, _, _, rfl, rfl, .reaching hcutst⟩
  · have hlt : cut.priority < top.priority := hle.lt_of_ne fun he => hbranch (Or.inr he.symm)
    exact ⟨_, _, _, rfl, rfl, .exceeding htopst hlt⟩

/-- **The priority schedule** of any table, sample and portion below `1`: its positions are
strictly increasing and in use; with an entry it schedules every entry of at least that priority
that has a delta; and it is not empty if some entry has a delta. -/
theorem priority_schedule [Zero V] (hlen : t.buckets.length = t.size) (h0 : 0 ≤ schedulePortion)
    (h1 : schedulePortion < 1)
    (hdraws : sampleSize < t.entries → sampleSize ≤ (draws.filter (usable t)).length)
    (hpri : ∀ c ∈ t.stored, 0 ≤ c.priority ∧ (c.v1 = kernel.defaultV → c.priority = 0))
    (threadInterval : List KVVPair) (numThreads : ℕ) :
    ∃ it threadInterval', ScheduledIterator.new kernel schedulePortion draws t threadInterval
        numThreads false = .ok (it, threadInterval') ∧
      it.scheduledPos.Pairwise (· < ·) ∧
      (∀ p ∈ it.scheduledPos, usable t p = true) ∧
      (∀ p ∈ it.scheduledPos, ∀ c, t.buckets[p]? = some c → ∀ q d, t.buckets[q]? = some d →
        d.inUse = true → d.v1 ≠ kernel.defaultV → c.priority ≤ d.priority →
        q ∈ it.scheduledPos) ∧
      ((∃ c ∈ t.stored, c.v1 ≠ kernel.defaultV) → it.scheduledPos ≠ []) := by
  obtain ⟨it, threadInterval', p, hnew, hscan, hsel⟩ := ScheduledIterator.new_selects kernel
    threadInterval numThreads h0 h1 hdraws
  refine ⟨it, threadInterval', hnew, ?_, ?_, ?_, ?_⟩ <;> rw [hscan]
  · exact pairwise_scan t p
  · intro pos hpos
    obtain ⟨c, hc, hu, -⟩ := (mem_scan_iff hlen).1 hpos
    exact usable_iff.2 ⟨c, hc, StateTable.mem_stored.2 ⟨List.mem_of_getElem? hc, hu⟩⟩
  · intro pos hpos c hc q d hd hu hdelta hle
    obtain ⟨c', hc', -, hp⟩ := (mem_scan_iff hlen).1 hpos
    rw [hc] at hc'
    cases hc'
    exact (mem_scan_iff hlen).2 ⟨d, hd, hu, hsel.upward hp hdelta hle⟩
  · rintro ⟨d, hst, hd⟩
    obtain ⟨c, hc, hp⟩ := hsel.exists_stored hpri hst hd
    rw [StateTable.mem_stored] at hc
    obtain ⟨b, hb⟩ := List.mem_iff_getElem?.1 hc.1
    exact List.ne_nil_of_mem ((mem_scan_iff hlen).2 ⟨c, hb, hc.2, hp⟩)

end Scheduled

/-- The entries of a table of `1001` vertices, of which only the last has a delta. -/
def busyEntry (i : ℕ) : Bucket Int32 ℚ (List Int32) :=
  ⟨Int32.ofNat i, if i = 1000 then 0.2 else 0, 0, [], if i = 1000 then 0.2 else 0, true⟩

/-- The table of these entries. -/
def oneBusy : StateTable Int32 ℚ (List Int32) := ⟨(List.range 1001).map busyEntry, 1001, 1001, 0⟩

theorem mem_stored_oneBusy {c : Bucket Int32 ℚ (List Int32)} :
    c ∈ oneBusy.stored ↔ ∃ i < 1001, busyEntry i = c := by
  rw [StateTable.mem_stored, oneBusy]
  simp only [List.mem_map, List.mem_range]
  constructor
  · rintro ⟨h, -⟩
    exact h
  · rintro ⟨i, hi, rfl⟩
    exact ⟨⟨i, hi, rfl⟩, rfl⟩

/-- A sample of idle entries only. -/
theorem usable_oneBusy : (List.replicate 1000 3).filter (usable oneBusy) = List.replicate 1000 3 :=
  List.filter_eq_self.2 fun i hi => by
    rw [List.eq_of_mem_replicate hi]
    simp [usable, oneBusy, busyEntry]

theorem priority_schedule_oneBusy : ∃ it threadInterval',
    ScheduledIterator.new pagerankIterateKernel 0.2 (List.replicate 1000 3) oneBusy [⟨7, 0, 0⟩] 1
      false = .ok (it, threadInterval') ∧ it.scheduledPos ≠ [] := by
  have hdraws : sampleSize < oneBusy.entries →
      sampleSize ≤ ((List.replicate 1000 3).filter (usable oneBusy)).length := fun _ => by
    rw [usable_oneBusy, List.length_replicate]
    exact le_rfl
  have hpri : ∀ c ∈ oneBusy.stored,
      0 ≤ c.priority ∧ (c.v1 = pagerankIterateKernel.defaultV → c.priority = 0) := by
    intro c hc
    obtain ⟨i, -, rfl⟩ := mem_stored_oneBusy.1 hc
    refine ⟨?_, fun h => h⟩
    show (0 : ℚ) ≤ if i = 1000 then 0.2 else 0
    split_ifs <;> norm_num
  have hbusy : ∃ c ∈ oneBusy.stored, c.v1 ≠ pagerankIterateKernel.defaultV := by
    refine ⟨_, mem_stored_oneBusy.2 ⟨1000, by decide, rfl⟩, ?_⟩
    show (0.2 : ℚ) ≠ 0
    norm_num
  have hportion : (0 : ℚ) ≤ 0.2 ∧ (0.2 : ℚ) < 1 := by norm_num
  obtain ⟨it, threadInterval', hnew, -, -, -, hne⟩ := priority_schedule
    (by simp [oneBusy]) hportion.1 hportion.2 hdraws hpri [⟨7, 0, 0⟩] 1
  exact ⟨it, threadInterval', hnew, hne hbusy⟩

end Maiter
