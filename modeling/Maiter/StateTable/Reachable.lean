import Maiter.StateTable.FiniteMap
import Maiter.Lib.Runs

/-!
# The tables of a run

Any sequence of calls on a constructed table, with `clear` and with `resize` to any capacity, also
below the number of stored keys.  A call may nest `put` and `resize` to any depth, so the tables
are those of all calls that return.

* `Op`, `Op.exec`: the calls of `Call`, and `clear` and `resize`;
* `OpStep`: one call that returns;
* `WF.op`: every call keeps the probe-chain invariant;
* `probe_chain`: in every table of a run, `bucketForKey` returns, it finds every stored key in the
  bucket where it sits, and `contains` holds of the stored keys.
-/

namespace Maiter

namespace StateTable

open Fallible (bind_eq_ok_iff)

variable {K V D : Type}

/-- A call on the table, the ones that rearrange it included. -/
inductive Op (K V D : Type)
  | call (c : Call K V D)
  | clear
  | resize (size : ℤ)

variable [DecidableEq K] [Zero V] [Inhabited (Bucket K V D)]

section Defs

variable (hashobj : K → ℕ) (kernel : IterateKernel K V D)

/-- The table after a call. -/
def Op.exec (depth : ℕ) (t : StateTable K V D) : Op K V D → Except Fault (StateTable K V D)
  | .call c => c.exec hashobj kernel depth t
  | .clear => t.clear
  | .resize size => StateTable.resize hashobj kernel depth t size

/-- A call that returns, at some depth of nested calls. -/
def OpStep (t : StateTable K V D) (o : Op K V D) (t' : StateTable K V D) : Prop :=
  ∃ depth, o.exec hashobj kernel depth t = .ok t'

end Defs

variable {hashobj : K → ℕ} {kernel : IterateKernel K V D} {t t' t₀ : StateTable K V D}

omit [Zero V] [Inhabited (Bucket K V D)] in
theorem WF.of_writeBucket (hwf : WF hashobj t) {f : Bucket K V D → Bucket K V D} {k : K}
    {missing : Fault} (h : t.writeBucket hashobj k missing f = .ok t') (hf : KeepsKey f) :
    WF hashobj t' := by
  cases hc : t.find k with
  | none =>
    rw [hwf.writeBucket_none hc] at h
    cases h
  | some c =>
    obtain ⟨t'', h', hwf', -⟩ := hwf.writeBucket_some hf hc missing
    rw [h'] at h
    cases h
    exact hwf'

theorem WF.call (hwf : WF hashobj t) {depth : ℕ} {c : Call K V D}
    (h : c.exec hashobj kernel depth t = .ok t') : WF hashobj t' := by
  cases c with
  | put k v1 v2 v3 =>
    have hgood : Good hashobj (fun _ => True) t := ⟨hwf, fun _ _ => trivial⟩
    exact (good_put (fun _ _ => trivial) depth t k v1 v2 v3 t' hgood trivial h).wf
  | updateF1 k v =>
    obtain ⟨t'', hwrite, h⟩ := bind_eq_ok_iff.1 h
    cases h
    have hwf' := hwf.of_writeBucket hwrite fun _ => ⟨rfl, rfl⟩
    exact hwf'.withCounters _ _
  | updateF2 k v => exact hwf.of_writeBucket h fun _ => ⟨rfl, rfl⟩
  | updateF3 k v => exact hwf.of_writeBucket h fun _ => ⟨rfl, rfl⟩
  | accumulateF1 k v => exact hwf.of_writeBucket h fun _ => ⟨rfl, rfl⟩
  | accumulateF2 k v => exact hwf.of_writeBucket h fun _ => ⟨rfl, rfl⟩

/-- **Every call keeps the probe-chain invariant.** -/
theorem WF.op (hwf : WF hashobj t) {o : Op K V D} (h : OpStep hashobj kernel t o t') :
    WF hashobj t' := by
  obtain ⟨depth, h⟩ := h
  cases o with
  | call c => exact hwf.call h
  | clear =>
    obtain ⟨hfits, rfl⟩ := clear_eq_ok h
    refine ⟨by simpa using hwf.len, hwf.pos, hfits, ?_⟩
    rw [layout_clear]
    exact LinearProbing.chained_empty _ _
  | resize size =>
    have hgood : Good hashobj (fun _ => True) t := ⟨hwf, fun _ _ => trivial⟩
    exact (good_resize (fun _ _ => trivial) depth hgood h).wf

theorem wf_of_reaches {depth : ℕ} {size : ℤ} (hnew : new hashobj kernel depth size = .ok t₀)
    (h : LTS.Reaches (OpStep hashobj kernel) t₀ t) : WF hashobj t :=
  h.invariant (fun _ _ _ hwf hstep => hwf.op hstep)
    (good_new (P := fun _ => True) (fun _ _ => trivial) depth hnew).wf

/-- **The probe chains of a run.**  In every table that a sequence of calls makes of a constructed
one, `bucketForKey` returns for every key; for the key of an in-use bucket it returns this bucket;
and `contains` answers whether some in-use bucket holds the key. -/
theorem probe_chain {depth : ℕ} {size : ℤ} (hnew : new hashobj kernel depth size = .ok t₀)
    (h : LTS.Reaches (OpStep hashobj kernel) t₀ t) :
    (∀ k, ∃ b, t.bucketForKey hashobj k = .ok b) ∧
    (∀ b c, t.buckets[b]? = some c → c.inUse = true →
      t.bucketForKey hashobj c.k = .ok (some b)) ∧
    (∀ k, ∃ answer, t.contains hashobj k = .ok answer ∧
      (answer = true ↔ ∃ c ∈ t.buckets, c.inUse = true ∧ c.k = k)) := by
  have hwf : WF hashobj t := wf_of_reaches hnew h
  refine ⟨fun k => ?_, fun b c hc hu => ?_, fun k => ?_⟩
  · rcases hwf.bucketForKey_cases k with ⟨b, -, hb, -⟩ | ⟨hb, -⟩
    · exact ⟨_, hb⟩
    · exact ⟨_, hb⟩
  · have hfind := hwf.find_of_getElem? hc hu
    rcases hwf.bucketForKey_cases c.k with ⟨b', c', hb', hc', hfind'⟩ | ⟨-, hnone⟩
    · rw [hfind] at hfind'
      cases hfind'
      rw [hb', hwf.index_unique hc hc' hu hu rfl]
    · rw [hfind] at hnone
      cases hnone
  · refine ⟨_, hwf.contains_eq k, ?_⟩
    rw [find_isSome_iff, mem_vertices]
    simp only [mem_stored, and_assoc]

theorem reaches_of_foldlM {depth : ℕ} (l : List (Op K V D)) :
    ∀ {t t' : StateTable K V D}, l.foldlM (fun t o => o.exec hashobj kernel depth t) t = .ok t' →
      LTS.Reaches (OpStep hashobj kernel) t t' := by
  induction l with
  | nil =>
    intro t t' h
    cases h
    exact LTS.Reaches.refl t
  | cons o l ih =>
    intro t t' h
    rw [List.foldlM_cons] at h
    obtain ⟨u, ho, hl⟩ := bind_eq_ok_iff.1 h
    exact (LTS.Run.single ⟨depth, ho⟩).reaches.trans (ih hl)

/-- Three colliding keys; `resize` to one bucket loses the first, and grows the table again while
it is filled. -/
theorem probe_chain_shrunk :
    ∃ t : StateTable Int32 ℚ (List Int32), t.size = 3 ∧ (t.find 1).isSome = false ∧
      ∃ answer, t.contains (fun _ => 0) 3 = .ok answer ∧
        (answer = true ↔ ∃ c ∈ t.buckets, c.inUse = true ∧ c.k = 3) := by
  obtain ⟨t₀, hnew, t, hops, hsize, hfind⟩ : ∃ t₀, new (fun _ => 0) pagerankIterateKernel 3 3
      = .ok t₀ ∧ ∃ t, [Op.call (.put 1 0 0 []), .call (.put 2 0 0 []), .call (.put 3 0 0 []),
        .call (.accumulateF1 2 0.5), .resize 1].foldlM
          (fun t o => Op.exec (fun _ => 0) pagerankIterateKernel 3 t o) t₀ = .ok t ∧
        t.size = 3 ∧ (t.find 1).isSome = false :=
    ⟨⟨List.replicate 3 ⟨0, 0, 0, [], 0, false⟩, 0, 3, 0⟩, by decide +kernel,
      ⟨[⟨2, 0.5, 0, [], 0.5, true⟩, ⟨3, 0, 0, [], 0, true⟩, ⟨0, 0, 0, [], 0, false⟩], 3, 3, 0⟩,
      by decide +kernel⟩
  exact ⟨t, hsize, hfind, (probe_chain hnew (reaches_of_foldlM _ hops)).2.2 3⟩

end StateTable

end Maiter
