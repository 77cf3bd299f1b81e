import Maiter.StateTable.Reachable
import Maiter.TermCheck.Estimate

/-!
# A pass over the whole table

`EntirePassIterator` walks all buckets of the table.  The output of the results and the progress
estimate use it in the same loop: `done()` is asked before `Next()`, and a `Next()` that finds no
further bucket ends the loop as well.

* `EntirePassIterator`, `done`, `next`: the iterator, with its position and its counter;
* `pass`: the loop, with what is done in every turn as a parameter;
* `dump`, `Diff.estimateProg`: the two callers;
* `advance_cases`, `next_cases`: where `Next()` stops;
* `pass_eq`: the loop is a fold over the in-use buckets, from the first to the last;
* `entire_pass`: in every table of a run both see every vertex exactly once.
-/

namespace Maiter

open StateTable

variable {K V D : Type}

/-- `EntirePassIterator`: its position, the number of calls of `Next()`, and `default_v()`. -/
structure EntirePassIterator (V : Type) where
  pos : ℤ
  total : ℕ
  defaultv : V
  deriving DecidableEq, Repr

/-- `buckets_[pos]`. -/
def bucketAt (t : StateTable K V D) (pos : ℤ) : Except Fault (Bucket K V D) :=
  if pos < 0 then .error .badIndex
  else
    match t.buckets[pos.toNat]? with
    | none => .error .badIndex
    | some c => .ok c

namespace EntirePassIterator

/-- The constructor. -/
def new (kernel : IterateKernel K V D) : EntirePassIterator V := ⟨-1, 0, kernel.defaultV⟩

/-- `done()`. -/
def done (it : EntirePassIterator V) (t : StateTable K V D) : Bool := it.pos + 1 = t.size

/-- The `do … while` loop of `Next()`, with at most `fuel` turns: the position where it stops. -/
def advance (t : StateTable K V D) : ℕ → ℤ → Except Fault ℤ
  | 0, _ => .error .loops
  | fuel + 1, pos => do
    let pos := pos + 1
    if pos < t.size then
      let c ← bucketAt t pos
      if !c.inUse then advance t fuel pos else .ok pos
    else .ok pos

/-- `Next()`: its answer, and the iterator that it leaves.  `total` is an `int`. -/
def next (it : EntirePassIterator V) (t : StateTable K V D) :
    Except Fault (Bool × EntirePassIterator V) := do
  let pos ← advance t (t.size + 1) it.pos
  if it.total < intMax then return (pos < t.size, ⟨pos, it.total + 1, it.defaultv⟩)
  else .error .intOverflow

/-- `key()`. -/
def key (it : EntirePassIterator V) (t : StateTable K V D) : Except Fault K := do
  return (← bucketAt t it.pos).k

/-- `value1()`. -/
def value1 (it : EntirePassIterator V) (t : StateTable K V D) : Except Fault V := do
  return (← bucketAt t it.pos).v1

/-- `value2()`. -/
def value2 (it : EntirePassIterator V) (t : StateTable K V D) : Except Fault V := do
  return (← bucketAt t it.pos).v2

end EntirePassIterator

/-- The loop `while (!it->done())` with a `break` if `Next()` answers `false`, with at most `fuel`
turns; `body` is the rest of a turn. -/
def pass {σ : Type} (t : StateTable K V D) (body : EntirePassIterator V → σ → Except Fault σ) :
    ℕ → EntirePassIterator V → σ → Except Fault σ
  | 0, _, _ => .error .loops
  | fuel + 1, it, s => do
    if it.done t then .ok s
    else
      let (cont, it) ← it.next t
      if !cont then .ok s
      else
        let s ← body it s
        pass t body fuel it s

section Defs

variable (kernel : IterateKernel K V D) (toDouble : V → ℚ)

/-- What `dump` computes: the two sums, and the lines of the file. -/
structure Dump (K V : Type) where
  totalF1 : ℚ
  totalF2 : ℚ
  file : List (K × V)
  deriving DecidableEq, Repr

/-- `dump`. -/
def dump (t : StateTable K V D) : Except Fault (Dump K V) :=
  pass t (fun it d => do
    let v1 ← it.value1 t
    let v2 ← it.value2 t
    let k ← it.key t
    return ⟨d.totalF1 + toDouble v1, d.totalF2 + toDouble v2, d.file ++ [(k, v2)]⟩)
    (t.size + 1) (.new kernel) ⟨0, 0, []⟩

/-- `estimate_prog`. -/
def Diff.estimateProg [DecidableEq V] (t : StateTable K V D) : Except Fault ℚ :=
  let defaultv := (EntirePassIterator.new kernel).defaultv
  pass t (fun it partialCurr => do
    let v2 ← it.value2 t
    if v2 ≠ defaultv then return partialCurr + toDouble v2 else return partialCurr)
    (t.size + 1) (.new kernel) 0

end Defs

variable {t : StateTable K V D}

namespace EntirePassIterator

variable {it : EntirePassIterator V} {c : Bucket K V D}

theorem key_eq (hc : bucketAt t it.pos = .ok c) : it.key t = .ok c.k := by
  rw [key, hc]
  rfl

theorem value1_eq (hc : bucketAt t it.pos = .ok c) : it.value1 t = .ok c.v1 := by
  rw [value1, hc]
  rfl

theorem value2_eq (hc : bucketAt t it.pos = .ok c) : it.value2 t = .ok c.v2 := by
  rw [value2, hc]
  rfl

end EntirePassIterator

theorem bucketAt_natCast (t : StateTable K V D) {p : ℕ} {c : Bucket K V D}
    (hc : t.buckets[p]? = some c) : bucketAt t p = .ok c := by
  rw [bucketAt, if_neg (by omega), Int.toNat_natCast, hc]

/-- The in-use buckets from position `p` on. -/
def usedFrom (t : StateTable K V D) (p : ℕ) : List (Bucket K V D) :=
  (t.buckets.drop p).filter (·.inUse)

theorem usedFrom_eq {p : ℕ} {c : Bucket K V D} (hc : t.buckets[p]? = some c) :
    usedFrom t p = if c.inUse then c :: usedFrom t (p + 1) else usedFrom t (p + 1) := by
  obtain ⟨hp, rfl⟩ := List.getElem?_eq_some_iff.1 hc
  rw [usedFrom, List.drop_eq_getElem_cons hp, List.filter_cons]
  rfl

namespace EntirePassIterator

/-- **Where the loop of `Next()` stops**: at the first in-use bucket after its position, or at the
end of the table if there is none. -/
theorem advance_cases (hlen : t.buckets.length = t.size) (fuel : ℕ) :
    ∀ (p : ℕ) (pos : ℤ), pos + 1 = p → p ≤ t.size → t.size - p < fuel →
      (advance t fuel pos = .ok t.size ∧ usedFrom t p = []) ∨
      ∃ q c, p ≤ q ∧ t.buckets[q]? = some c ∧ advance t fuel pos = .ok q ∧
        usedFrom t p = c :: usedFrom t (q + 1) := by
  induction fuel with
  | zero => omega
  | succ fuel ih =>
    intro p pos hpos hp hfuel
    rcases hp.eq_or_lt with rfl | hlt
    · left
      refine ⟨?_, ?_⟩
      · rw [advance, hpos, if_neg (lt_irrefl _)]
      · rw [usedFrom, ← hlen, List.drop_length]
        rfl
    · have hc : t.buckets[p]? = some t.buckets[p] := List.getElem?_eq_getElem (by omega)
      cases hu : t.buckets[p].inUse with
      | true =>
        right
        refine ⟨p, _, le_rfl, hc, ?_, by rw [usedFrom_eq hc, if_pos hu]⟩
        rw [advance, hpos, if_pos (by omega), bucketAt_natCast t hc, Fallible.ok_bind, hu]
        rfl
      | false =>
        have hturn : advance t (fuel + 1) pos = advance t fuel p := by
          rw [advance, hpos, if_pos (by omega), bucketAt_natCast t hc, Fallible.ok_bind, hu]
          rfl
        rw [hturn, usedFrom_eq hc, if_neg (by rw [hu]; exact Bool.false_ne_true)]
        rcases ih (p + 1) p rfl hlt (by omega) with hend | ⟨q, c, hq, hcq, hadv, hused⟩
        · exact Or.inl hend
        · exact Or.inr ⟨q, c, by omega, hcq, hadv, hused⟩

/-- **What `Next()` does** before the end of the table.  The counter does not overflow, because
every call moves the position. -/
theorem next_cases (hlen : t.buckets.length = t.size) (hfits : t.size ≤ intMax)
    {it : EntirePassIterator V} {p : ℕ} (hpos : it.pos + 1 = p) (hp : p < t.size)
    (htotal : it.total ≤ p) :
    ((∃ it', it.next t = .ok (false, it')) ∧ usedFrom t p = []) ∨
    ∃ q c, p ≤ q ∧ t.buckets[q]? = some c ∧
      it.next t = .ok (true, ⟨q, it.total + 1, it.defaultv⟩) ∧
      usedFrom t p = c :: usedFrom t (q + 1) := by
  have hcount : it.total < intMax := by omega
  rcases advance_cases hlen (t.size + 1) p it.pos hpos hp.le (by omega) with
    ⟨hadv, hused⟩ | ⟨q, c, hq, hc, hadv, hused⟩
  · refine Or.inl ⟨⟨⟨t.size, it.total + 1, it.defaultv⟩, ?_⟩, hused⟩
    rw [next, hadv, Fallible.ok_bind, if_pos hcount, decide_eq_false (lt_irrefl _)]
    rfl
  · have hlt : (q : ℤ) < t.size := by
      rw [← hlen]
      exact Nat.cast_lt.2 (List.getElem?_eq_some_iff.1 hc).1
    refine Or.inr ⟨q, c, hq, hc, ?_, hused⟩
    rw [next, hadv, Fallible.ok_bind, if_pos hcount, decide_eq_true hlt]
    rfl

end EntirePassIterator

/-- **The loop is a fold over the in-use buckets** that the iterator has not passed. -/
theorem pass_eq (hlen : t.buckets.length = t.size) (hfits : t.size ≤ intMax) {σ : Type}
    {body : EntirePassIterator V → σ → Except Fault σ} {f : σ → Bucket K V D → σ}
    (hbody : ∀ it c s, bucketAt t it.pos = .ok c → body it s = .ok (f s c)) (fuel : ℕ) :
    ∀ (p : ℕ) (it : EntirePassIterator V) (s : σ), it.pos + 1 = p → p ≤ t.size → it.total ≤ p →
      t.size - p < fuel → pass t body fuel it s = .ok ((usedFrom t p).foldl f s) := by
  induction fuel with
  | zero => omega
  | succ fuel ih =>
    intro p it s hpos hp htotal hfuel
    rcases hp.eq_or_lt with rfl | hlt
    · have hdone : it.done t = true := decide_eq_true hpos
      rw [pass, if_pos hdone, usedFrom, ← hlen, List.drop_length]
      rfl
    · have hdone : ¬ it.done t = true := by
        rw [EntirePassIterator.done, decide_eq_true_eq]
        omega
      rw [pass, if_neg hdone]
      rcases EntirePassIterator.next_cases hlen hfits hpos hlt htotal with
        ⟨⟨it', hnext⟩, hused⟩ | ⟨q, c, hq, hc, hnext, hused⟩
      · rw [hnext, hused]
        rfl
      · have hq' : q < t.size := by
          rw [← hlen]
          exact (List.getElem?_eq_some_iff.1 hc).1
        have hturn := hbody ⟨q, it.total + 1, it.defaultv⟩ c s (bucketAt_natCast t hc)
        have hrest := ih (q + 1) ⟨q, it.total + 1, it.defaultv⟩ (f s c) (by push_cast; rfl) hq'
          (Nat.succ_le_succ (htotal.trans hq)) (by omega)
        rw [hnext, hused, List.foldl_cons, ← hrest]
        show (body ⟨q, it.total + 1, it.defaultv⟩ s >>= fun s => pass t body fuel _ s) = _
        rw [hturn, Fallible.ok_bind]

/-- A whole pass. -/
theorem pass_new (kernel : IterateKernel K V D) (hlen : t.buckets.length = t.size)
    (hfits : t.size ≤ intMax) {σ : Type} {body : EntirePassIterator V → σ → Except Fault σ}
    {f : σ → Bucket K V D → σ}
    (hbody : ∀ it c s, bucketAt t it.pos = .ok c → body it s = .ok (f s c)) (s : σ) :
    pass t body (t.size + 1) (.new kernel) s = .ok (t.stored.foldl f s) :=
  pass_eq hlen hfits hbody (t.size + 1) 0 (.new kernel) s rfl (Nat.zero_le _) (Nat.zero_le _)
    (by omega)

section Callers

variable {kernel : IterateKernel K V D} {toDouble : V → ℚ}

theorem foldl_dump (l : List (Bucket K V D)) : ∀ d : Dump K V,
    l.foldl (fun d c => ⟨d.totalF1 + toDouble c.v1, d.totalF2 + toDouble c.v2,
      d.file ++ [(c.k, c.v2)]⟩) d =
      ⟨d.totalF1 + (l.map fun c => toDouble c.v1).sum,
        d.totalF2 + (l.map fun c => toDouble c.v2).sum, d.file ++ l.map fun c => (c.k, c.v2)⟩ := by
  induction l with
  | nil => intro d; simp
  | cons c l ih =>
    intro d
    rw [List.foldl_cons, ih]
    simp [add_assoc]

/-- **`dump` writes the in-use buckets**, from the first to the last. -/
theorem dump_eq (hlen : t.buckets.length = t.size) (hfits : t.size ≤ intMax) :
    dump kernel toDouble t = .ok ⟨(t.stored.map fun c => toDouble c.v1).sum,
      (t.stored.map fun c => toDouble c.v2).sum, t.stored.map fun c => (c.k, c.v2)⟩ := by
  have hbody : ∀ (it : EntirePassIterator V) (c : Bucket K V D) (d : Dump K V),
      bucketAt t it.pos = .ok c → (do
        let v1 ← it.value1 t
        let v2 ← it.value2 t
        let k ← it.key t
        return (⟨d.totalF1 + toDouble v1, d.totalF2 + toDouble v2, d.file ++ [(k, v2)]⟩ :
          Dump K V)) = Except.ok ⟨d.totalF1 + toDouble c.v1, d.totalF2 + toDouble c.v2,
            d.file ++ [(c.k, c.v2)]⟩ := by
    intro it c d hc
    rw [EntirePassIterator.value1_eq hc, EntirePassIterator.value2_eq hc,
      EntirePassIterator.key_eq hc]
    rfl
  rw [dump, pass_new kernel hlen hfits hbody, foldl_dump]
  simp

theorem foldl_estimate [DecidableEq V] (l : List (Bucket K V D)) : ∀ x : ℚ,
    l.foldl (fun x c => if c.v2 ≠ kernel.defaultV then x + toDouble c.v2 else x) x =
      x + ((l.filter fun c => c.v2 ≠ kernel.defaultV).map fun c => toDouble c.v2).sum := by
  induction l with
  | nil => intro x; simp
  | cons c l ih =>
    intro x
    rw [List.foldl_cons, ih]
    by_cases hv : c.v2 = kernel.defaultV <;> simp [hv, add_assoc]

/-- **`estimate_prog` without interference.** -/
theorem Diff.estimateProg_eq [DecidableEq V] (hlen : t.buckets.length = t.size)
    (hfits : t.size ≤ intMax) :
    Diff.estimateProg kernel toDouble t = .ok (TermCheck.estimateProg kernel toDouble t) := by
  have hbody : ∀ (it : EntirePassIterator V) (c : Bucket K V D) (x : ℚ),
      bucketAt t it.pos = .ok c → (do
        let v2 ← it.value2 t
        if v2 ≠ kernel.defaultV then return x + toDouble v2 else return x)
        = Except.ok (if c.v2 ≠ kernel.defaultV then x + toDouble c.v2 else x) := by
    intro it c x hc
    rw [EntirePassIterator.value2_eq hc, Fallible.ok_bind]
    split_ifs <;> rfl
  refine (pass_new kernel hlen hfits hbody 0).trans ?_
  rw [foldl_estimate, zero_add]
  rfl

variable [DecidableEq K] {hashobj : K → ℕ}

/-- **Every vertex exactly once**, in every table of a run: the loop ends and reads no bucket
outside the table, the file has one line for each stored key, and the estimate adds the values of
the stored keys. -/
theorem entire_pass [DecidableEq V] [Zero V] [Inhabited (Bucket K V D)] {t₀ : StateTable K V D}
    {depth : ℕ} {size : ℤ} (hnew : StateTable.new hashobj kernel depth size = .ok t₀)
    (h : LTS.Reaches (OpStep hashobj kernel) t₀ t) (toDouble : V → ℚ) :
    ∃ value : K → V, (∀ k ∈ t.vertices, t.getF2 hashobj k = .ok (value k)) ∧
      (∃ d, dump kernel toDouble t = .ok d ∧
        d.file.Perm (t.vertices.toList.map fun k => (k, value k))) ∧
      Diff.estimateProg kernel toDouble t
        = .ok (∑ k ∈ t.vertices with value k ≠ kernel.defaultV, toDouble (value k)) := by
  have hwf : WF hashobj t := wf_of_reaches hnew h
  obtain ⟨value, hvalue⟩ : ∃ value : K → V, ∀ c ∈ t.stored, value c.k = c.v2 := by
    refine ⟨fun k => (t.find k).elim kernel.defaultV (·.v2), fun c hc => ?_⟩
    show (t.find c.k).elim kernel.defaultV (·.v2) = c.v2
    rw [hwf.find_eq_some_iff.2 ⟨hc, rfl⟩, Option.elim_some]
  refine ⟨value, ?_, ?_, ?_⟩
  · rw [forall_mem_vertices]
    intro c hc
    rw [hvalue c hc, getF2, hwf.readBucket_eq, hwf.find_eq_some_iff.2 ⟨hc, rfl⟩]
  · refine ⟨_, dump_eq hwf.len hwf.fits, ?_⟩
    have hlines : (t.stored.map fun c => (c.k, c.v2))
        = (t.stored.map (·.k)).map fun k => (k, value k) := by
      rw [List.map_map]
      exact List.map_congr_left fun c hc => by rw [Function.comp_apply, hvalue c hc]
    rw [hlines]
    exact ((List.toFinset_toList hwf.nodup_keys).map _).symm
  · rw [Diff.estimateProg_eq hwf.len hwf.fits, TermCheck.estimateProg_eq_sum hwf, Finset.sum_filter]
    refine congrArg Except.ok (Finset.sum_congr rfl ?_)
    rw [forall_mem_vertices]
    intro c hc
    rw [TermCheck.share_of_find (hwf.find_eq_some_iff.2 ⟨hc, rfl⟩), hvalue c hc]

end Callers

/-- Five buckets, of which the second and the fourth are in use. -/
theorem entire_pass_twoKeys : ∃ t : StateTable Int32 ℚ (List Int32),
    t.buckets.map (·.inUse) = [false, true, false, true, false] ∧ ∃ value : Int32 → ℚ,
      (∃ d, dump pagerankIterateKernel id t = .ok d ∧
        d.file.Perm (t.vertices.toList.map fun k => (k, value k))) ∧
      Diff.estimateProg pagerankIterateKernel id t
        = .ok (∑ k ∈ t.vertices with value k ≠ 0, value k) := by
  obtain ⟨t₀, hnew, t, hops, huse⟩ : ∃ t₀,
      StateTable.new (fun k : Int32 => k.toUInt32.toNat) pagerankIterateKernel 1 5 = .ok t₀ ∧
        ∃ t, [Op.call (.put 3 0 0.5 []), .call (.put 1 0 0 [3])].foldlM
          (fun t o => Op.exec (fun k : Int32 => k.toUInt32.toNat) pagerankIterateKernel 1 t o) t₀
            = .ok t ∧ t.buckets.map (·.inUse) = [false, true, false, true, false] :=
    ⟨⟨List.replicate 5 ⟨0, 0, 0, [], 0, false⟩, 0, 5, 0⟩, by decide +kernel,
      ⟨[⟨0, 0, 0, [], 0, false⟩, ⟨1, 0, 0, [3], 0, true⟩, ⟨0, 0, 0, [], 0, false⟩,
        ⟨3, 0, 0.5, [], 0, true⟩, ⟨0, 0, 0, [], 0, false⟩], 2, 5, 0⟩, by decide +kernel⟩
  obtain ⟨value, -, hdump, hestimate⟩ := entire_pass hnew (reaches_of_foldlM _ hops) id
  exact ⟨t, huse, value, hdump, hestimate⟩

end Maiter
