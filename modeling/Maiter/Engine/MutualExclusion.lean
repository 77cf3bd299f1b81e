import Maiter.Engine.Atomicity

/-!
# The mutexes of the vertices

* `Held`, `held_effect`: a mutex is held by no other thread than the one in the critical section of
  its vertex;
* `find_of_held`: a statement of one thread leaves alone the entry that another one has locked;
* `step_of_inSection`, `step_of_inside`: a thread in a critical section is never blocked, and a
  thread in `run_iter` is blocked only by such a thread;
* `mutual_exclusion`: the three together, for every reachable state.
-/

namespace Maiter

open Engine (ClosedLinks Deliverable keepsKey_accumulated keepsKey_cleared)

variable {K V D : Type} [DecidableEq K] {n : ℕ} {hashobj : K → ℕ} {kernel : IterateKernel K V D}
  {t₀ : StateTable K V D}

namespace Vertexlock

variable {s s' : State K V D n} {w : Fin n}

/-- A mutex that is held is held by a thread in the critical section of its vertex. -/
def Held (s : State K V D n) : Prop :=
  ∀ k w, s.mutex k = some w → (s.pc w).inSection s.table = some k

omit [DecidableEq K] in
/-- A step of thread `w` that gives no mutex to another thread. -/
theorem Held.advance (hs : Held s) (hlay : s'.table.layout = s.table.layout)
    {pc : IterPc K V} (hpc : s'.pc = Function.update s.pc w pc)
    (hself : ∀ k, s'.mutex k = some w → pc.inSection s.table = some k)
    (hother : ∀ k w', w' ≠ w → s'.mutex k = some w' → s.mutex k = some w') : Held s' := by
  intro k w' hk
  rw [inSection_congr hlay, hpc]
  by_cases hw : w' = w
  · subst hw
    rw [Function.update_self]
    exact hself k hk
  · rw [Function.update_of_ne hw]
    exact hs k w' (hother k w' hw hk)

theorem held_effect [Zero V] (hs : Held s) (h : Effect kernel s w s') : Held s' := by
  have hw : ∀ k, s.mutex k = some w → (s.pc w).inSection s.table = some k := fun k => hs k w
  -- what holds of the mutexes after `lock` and after `unlock`
  have hlock : ∀ {k₀ k : K} {w' : Fin n}, w' ≠ w →
      Function.update s.mutex k₀ (some w) k = some w' → s.mutex k = some w' := by
    intro k₀ k w' hne hk
    by_cases hk₀ : k = k₀
    · subst hk₀
      rw [Function.update_self, Option.some.injEq] at hk
      exact absurd hk.symm hne
    · rwa [Function.update_of_ne hk₀] at hk
  have hunlock : ∀ {k₀ k : K} {w' : Fin n},
      Function.update s.mutex k₀ none k = some w' → k ≠ k₀ ∧ s.mutex k = some w' := by
    intro k₀ k w' hk
    by_cases hk₀ : k = k₀
    · subst hk₀
      rw [Function.update_self] at hk
      cases hk
    · rw [Function.update_of_ne hk₀] at hk
      exact ⟨hk₀, hk⟩
  cases h with
  | enter hpc _ | leave hpc | next hpc =>
    refine hs.advance rfl rfl (fun k hk => ?_) fun _ _ _ h => h
    have hsection := hw k hk
    rw [hpc] at hsection
    cases hsection
  | @lock pos k₀ hpc hlay _ =>
    refine hs.advance rfl rfl (fun k hk => ?_) fun k w' hne h => hlock hne h
    by_cases hk₀ : k = k₀
    · rw [hk₀]
      exact hlay
    · have hmutex : Function.update s.mutex k₀ (some w) k = some w := hk
      rw [Function.update_of_ne hk₀] at hmutex
      have hsection := hw k hmutex
      rw [hpc] at hsection
      cases hsection
  | process hpc | send hpc _ _ =>
    refine hs.advance rfl rfl (fun k hk => ?_) fun _ _ _ h => h
    have hsection := hw k hk
    rw [hpc] at hsection
    exact hsection
  | @accumulate pos k₀ hpc hlay =>
    refine hs.advance (StateTable.layout_rewriteAt (keepsKey_accumulated kernel) k₀) rfl
      (fun k hk => ?_) fun _ _ _ h => h
    have hsection := hw k hk
    rw [hpc] at hsection
    exact hsection
  | @reset pos k₀ hpc hlay =>
    refine hs.advance (StateTable.layout_rewriteAt (keepsKey_cleared kernel) k₀) rfl
      (fun k hk => ?_) fun _ _ _ h => h
    have hsection := hw k hk
    rw [hpc] at hsection
    exact hsection
  | @unlock pos k₀ hpc hlay =>
    refine hs.advance rfl rfl (fun k hk => ?_) fun k w' _ h => (hunlock h).2
    obtain ⟨hne, hmutex⟩ := hunlock hk
    have hsection := hw k hmutex
    rw [hpc, IterPc.inSection, hlay, Option.some.injEq] at hsection
    exact absurd hsection.symm hne
  | @lockTarget kvpair rest hpc _ =>
    refine hs.advance rfl rfl (fun k hk => ?_) fun k w' hne h => hlock hne h
    by_cases hk₀ : k = kvpair.1
    · rw [hk₀]
      rfl
    · have hmutex : Function.update s.mutex kvpair.1 (some w) k = some w := hk
      rw [Function.update_of_ne hk₀] at hmutex
      have hsection := hw k hmutex
      rw [hpc] at hsection
      cases hsection
  | @apply kvpair rest hpc _ =>
    refine hs.advance (StateTable.layout_rewriteAt (Engine.keepsKey_received kernel kvpair.2) _)
      rfl (fun k hk => ?_) fun _ _ _ h => h
    have hsection := hw k hk
    rw [hpc] at hsection
    exact hsection
  | @unlockTarget kvpair rest hpc =>
    refine hs.advance rfl rfl (fun k hk => ?_) fun k w' _ h => (hunlock h).2
    obtain ⟨hne, hmutex⟩ := hunlock hk
    have hsection := hw k hmutex
    rw [hpc, IterPc.inSection, Option.some.injEq] at hsection
    exact absurd hsection.symm hne

/-! ### What is locked -/

variable [Zero V]

omit [Zero V] in
/-- A rewritten bucket is that of the vertex whose critical section the thread is in. -/
theorem find_rewriteAt_of_held (hI : Inv hashobj t₀ s) {k₀ k : K} {w' : Fin n}
    {f : Bucket K V D → Bucket K V D} (hf : StateTable.KeepsKey f)
    (hsection : (s.pc w).inSection s.table = some k₀) (hk : s.mutex k = some w') (hne : w' ≠ w) :
    (s.table.rewriteAt k₀ f).find k = s.table.find k := by
  rw [hI.wf.find_rewriteAt hf, if_neg]
  rintro rfl
  rw [hI.holds w k hsection, Option.some.injEq] at hk
  exact hne hk.symm

/-- **A statement of one thread leaves alone what another one has locked.** -/
theorem find_of_held (hI : Inv hashobj t₀ s) (h : Effect kernel s w s') {k : K} {w' : Fin n}
    (hk : s.mutex k = some w') (hne : w' ≠ w) :
    s'.table.find k = s.table.find k ∧ s'.mutex k = some w' := by
  have hsection := hI.holds w
  have hlock : ∀ {k₀ : K}, s.mutex k₀ = none →
      Function.update s.mutex k₀ (some w) k = some w' := fun hfree =>
    update_mutex_of_free hfree _ w' k hk
  have hunlock : ∀ {k₀ : K}, (s.pc w).inSection s.table = some k₀ →
      Function.update s.mutex k₀ none k = some w' := fun hs =>
    update_mutex_of_held (hsection _ hs) _ hne hk
  cases h with
  | enter _ _ | process _ | send _ _ _ | leave _ | next _ => exact ⟨rfl, hk⟩
  | lock hpc _ hfree => exact ⟨rfl, hlock hfree⟩
  | lockTarget hpc hfree => exact ⟨rfl, hlock hfree⟩
  | unlock hpc hlay => exact ⟨rfl, hunlock (by rw [hpc]; exact hlay)⟩
  | unlockTarget hpc => exact ⟨rfl, hunlock (by rw [hpc]; rfl)⟩
  | accumulate hpc hlay =>
    exact ⟨find_rewriteAt_of_held hI (keepsKey_accumulated kernel) (by rw [hpc]; exact hlay) hk hne,
      hk⟩
  | reset hpc hlay =>
    exact ⟨find_rewriteAt_of_held hI (keepsKey_cleared kernel) (by rw [hpc]; exact hlay) hk hne, hk⟩
  | apply hpc _ =>
    exact ⟨find_rewriteAt_of_held hI (Engine.keepsKey_received kernel _) (by rw [hpc]; rfl) hk hne,
      hk⟩

/-! ### Progress -/

/-- The messages that a thread has left to deliver go to stored vertices. -/
theorem mem_vertices_of_apply (hd : Deliverable (s.atomic kernel)) {kvpair : K × V}
    {rest : List (K × V)} (hpc : s.pc w = .apply kvpair rest) : kvpair.1 ∈ s.table.vertices := by
  have hmem := hd w kvpair (by
    show kvpair ∈ (s.pc w).pending kernel s.table (s.output w)
    rw [hpc]
    exact List.mem_cons_self)
  have hverts : (s.atomic kernel).table.vertices = s.table.vertices :=
    StateTable.vertices_map (keepsKey_settle kernel)
  rwa [hverts] at hmem

/-- **A thread in a critical section is never blocked.** -/
theorem step_of_inSection (hI : Inv hashobj t₀ s) (hd : Deliverable (s.atomic kernel)) {k : K}
    (hk : (s.pc w).inSection s.table = some k) : ∃ s', Effect kernel s w s' := by
  cases hpc : s.pc w <;> rw [hpc] at hk
  case outside | lock | next | lockTarget => cases hk
  case process pos => exact ⟨_, .process hpc⟩
  case accumulate pos => exact ⟨_, .accumulate hpc hk⟩
  case send pos =>
    obtain ⟨c, hc, hu, rfl⟩ := StateTable.layout_eq_some_iff.1 hk
    exact ⟨_, .send hpc hk (hI.wf.find_of_getElem? hc hu)⟩
  case reset pos => exact ⟨_, .reset hpc hk⟩
  case unlock pos => exact ⟨_, .unlock hpc hk⟩
  case apply kvpair rest => exact ⟨_, .apply hpc (mem_vertices_of_apply hd hpc)⟩
  case unlockTarget kvpair rest => exact ⟨_, .unlockTarget hpc⟩

/-- A thread in `run_iter` can take a step, or it waits for a mutex, and the thread that holds that
one can. -/
theorem step_of_inside (hI : Inv hashobj t₀ s) (hheld : Held s) (hd : Deliverable (s.atomic kernel))
    (hw : s.pc w ≠ .outside) :
    ∃ w', s.pc w' ≠ .outside ∧ ∃ s', Effect kernel s w' s' := by
  -- whoever holds the mutex is in a critical section
  have hblocked : ∀ k, s.mutex k ≠ none →
      ∃ w', s.pc w' ≠ .outside ∧ ∃ s', Effect kernel s w' s' := by
    intro k hk
    obtain ⟨w', hw'⟩ := Option.ne_none_iff_exists'.1 hk
    have hsection := hheld k w' hw'
    refine ⟨w', fun hpc => ?_, step_of_inSection hI hd hsection⟩
    rw [hpc] at hsection
    cases hsection
  cases hpc : s.pc w
  case outside => exact absurd hpc hw
  case lock pos =>
    obtain ⟨k, hk⟩ := hI.refers w pos (by rw [hpc]; rfl)
    by_cases hfree : s.mutex k = none
    · exact ⟨w, hw, _, .lock hpc hk hfree⟩
    · exact hblocked k hfree
  case lockTarget kvpair rest =>
    by_cases hfree : s.mutex kvpair.1 = none
    · exact ⟨w, hw, _, .lockTarget hpc hfree⟩
    · exact hblocked _ hfree
  case next rest =>
    cases rest with
    | nil => exact ⟨w, hw, _, .leave hpc⟩
    | cons kvpair rest => exact ⟨w, hw, _, .next hpc⟩
  case apply kvpair rest => exact ⟨w, hw, step_of_inSection hI hd (by rw [hpc]; rfl)⟩
  case unlockTarget kvpair rest => exact ⟨w, hw, step_of_inSection hI hd (by rw [hpc]; rfl)⟩
  all_goals
    obtain ⟨k, hk⟩ := hI.refers w _ (by rw [hpc]; rfl)
    exact ⟨w, hw, step_of_inSection hI hd (by rw [hpc]; exact hk)⟩

/-! ### Every reachable state -/

variable [Inhabited (Bucket K V D)]

theorem held_reaches (hload : Loaded hashobj kernel t₀)
    (h : Reaches hashobj kernel (start t₀) s) : Inv hashobj t₀ s ∧ Held s :=
  reaches_invariant hload (fun k w hk => by cases hk) (fun _ _ _ _ heffect hs =>
    held_effect hs heffect) h

theorem deliverable_reaches (hload : Loaded hashobj kernel t₀) (hclosed : ClosedLinks kernel t₀)
    (h : Reaches hashobj kernel (start t₀) s) : Deliverable (s.atomic kernel) := by
  have hatomic := reaches_atomic hload h
  refine (hatomic.invariant (I := fun e => Engine.Inv hashobj t₀ e ∧ Deliverable e) ?_ ?_).2
  · rintro e a e' ⟨hI, hd⟩ hstep
    exact ⟨Engine.inv_step hI hstep, Engine.deliverable_step hclosed hI hd hstep⟩
  · exact ⟨Engine.inv_start hload, fun _ m hm => by simp [Engine.start] at hm⟩

/-- **The mutexes of the vertices** do what they are for, in every reachable state.  A thread holds
the mutex of a vertex exactly while it is in a critical section on it; no other thread changes the
entry of the vertex then, or gets the mutex; and if the links are closed, the threads in `run_iter`
never block each other for good: one of them can take its next step. -/
theorem mutual_exclusion (hload : Loaded hashobj kernel t₀)
    (h : Reaches hashobj kernel (start t₀) s) :
    (∀ k w, s.mutex k = some w ↔ (s.pc w).inSection s.table = some k) ∧
    (∀ w pos s', Step hashobj kernel s (w, pos) s' → ∀ k w', s.mutex k = some w' → w' ≠ w →
      s'.table.find k = s.table.find k ∧ s'.mutex k = some w') ∧
    (ClosedLinks kernel t₀ → ∀ w, s.pc w ≠ .outside →
      ∃ w', s.pc w' ≠ .outside ∧ ∃ pos s', Step hashobj kernel s (w', pos) s') := by
  obtain ⟨hI, hheld⟩ := held_reaches hload h
  refine ⟨fun k w => ⟨hheld k w, hI.holds w k⟩, fun w pos s' hstep k w' hk hne => ?_,
    fun hclosed w hw => ?_⟩
  · exact find_of_held hI (iterStep_effect hI hstep) hk hne
  · obtain ⟨w', hw', s', heffect⟩ :=
      step_of_inside hI hheld (deliverable_reaches hload hclosed h) hw
    obtain ⟨pos, hstep⟩ := exists_step_of_effect hI heffect
    exact ⟨w', hw', pos, s', hstep⟩

end Vertexlock

namespace Engine

/-- Closed links, in terms of the adjacency lists. -/
theorem closedLinks_pagerank {t : StateTable Int32 ℚ (List Int32)}
    (h : ∀ c ∈ t.stored, c.v3.toFinset ⊆ t.vertices) :
    ClosedLinks pagerankIterateKernel t := by
  intro c hc delta value m hm
  obtain ⟨target, htarget, rfl⟩ := List.mem_map.1 hm
  exact h c hc (List.mem_toFinset.2 htarget)

theorem closedLinks_twoVertices :
    ClosedLinks pagerankIterateKernel (twoVertices 0.2 0 0.2 0 0) :=
  closedLinks_pagerank (by decide +kernel)

end Engine

namespace Vertexlock

open Engine (idHash twoVertices)

/-- A thread has locked the first vertex, and another one waits for the mutex. -/
theorem mutual_exclusion_twoVertices : ∃ s : State Int32 ℚ (List Int32) 2,
    Reaches idHash pagerankIterateKernel (start (twoVertices 0.2 0 0.2 0 0)) s ∧
    s.mutex 0 = some 0 ∧ s.pc 1 = .lock 0 ∧
    ∃ w', s.pc w' ≠ .outside ∧ ∃ pos s', Step idHash pagerankIterateKernel s (w', pos) s' := by
  have hrun : (([(0, 0), (0, 0), (1, 0)] : List (Fin 2 × ℕ)).foldlM (fun s a =>
      iterStep idHash pagerankIterateKernel a.1 a.2 s) (start (twoVertices 0.2 0 0.2 0 0))).map
      (fun s => (s.table, s.pc 0, s.pc 1))
      = some (twoVertices 0.2 0 0.2 0 0, .process 0, .lock 0) := by decide +kernel
  obtain ⟨s, hs, hproj⟩ := Option.map_eq_some_iff.1 hrun
  simp only [Prod.mk.injEq] at hproj
  obtain ⟨htable, hpc₀, hpc₁⟩ := hproj
  have hreach : Reaches idHash pagerankIterateKernel (start (twoVertices 0.2 0 0.2 0 0)) s :=
    (LTS.Run.of_foldlM _ hs).reaches
  obtain ⟨hheld, -, hprogress⟩ := mutual_exclusion Engine.loaded_twoVertices hreach
  refine ⟨s, hreach, (hheld 0 0).2 ?_, hpc₁,
    hprogress Engine.closedLinks_twoVertices 1 (by simp [hpc₁])⟩
  rw [hpc₀, htable]
  decide

end Vertexlock

end Maiter
