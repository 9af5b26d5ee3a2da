import HintScript.Proofs.Exec

set_option autoImplicit false

namespace HintScript

namespace Machine

variable {env : Env} {item : Item} {s t : Script} {m m' n : Machine}

theorem peak_onStacks {α : Type} {e : Effect α} {x : α} (h : onStacks e m = .ok x n) :
    n.peak = m.peak := by
  unfold onStacks at h
  split at h <;> cases h
  rfl

theorem peak_openBranch {code : Opcode} {sense : Bool} (h : openBranch code sense m = .ok () n) :
    n.peak = m.peak := by
  unfold openBranch taken at h
  simp only [bind, EStateM.bind, get, getThe, MonadStateOf.get, EStateM.get] at h
  by_cases ha : m.active = true
  · simp only [ha, if_true, EStateM.bind] at h
    cases hc : onStacks (condition code) m with
    | error e m₁ => simp [hc] at h
    | ok c m₁ =>
      have hpeak := peak_onStacks hc
      simp only [hc] at h
      cases h
      exact hpeak
  · simp only [ha] at h
    cases h
    rfl

theorem peak_move (h : move env item m = .ok () n) : n.peak = m.peak := by
  cases hc : item.conditional with
  | false =>
    rw [move_plain env hc] at h
    exact peak_onStacks h
  | true =>
    cases item with
    | push data => cases hc
    | op o =>
      cases o <;> first | cases hc; done | skip
      · exact peak_openBranch h
      · exact peak_openBranch h
      · obtain ⟨st, branches, position, executed, peak⟩ := m
        cases branches <;> cases h
        rfl
      · obtain ⟨st, branches, position, executed, peak⟩ := m
        cases branches <;> cases h
        rfl

/-- A step that goes through has acted, with the items that are left within the limit, or passed
the item over. -/
theorem acted_or_passed (h : step env item m = .ok () m') :
    (∃ n, move env item m = .ok () n ∧ (n.stack.size : Int) ≤ env.limits.stackItems ∧
      m'.stack = n.stack ∧ m'.peak = max n.peak n.stack.size) ∨
      item.conditional = false ∧ m.active = false ∧ m' = m.passed := by
  by_cases hi : item.conditional = true ∨ m.active = true
  · rw [step_acting hi, act_eq] at h
    cases hm : move env item m with
    | error e n => simp [hm] at h
    | ok a n =>
      by_cases hs : env.limits.stackItems < n.stack.size
      · simp [hm, hs] at h
      · simp only [hm, if_neg hs, EStateM.Result.ok.injEq, true_and] at h
        subst h
        exact .inl ⟨n, rfl, Int.not_lt.mp hs, rfl, rfl⟩
  · simp only [not_or, Bool.not_eq_true] at hi
    rw [step_idle hi.1 hi.2] at h
    cases h
    exact .inr ⟨hi.1, hi.2, rfl⟩

theorem size_le_of_step (env : Env) {item : Item} {m m' : Machine}
    (hm : (m.stack.size : Int) ≤ env.limits.stackItems) (h : step env item m = .ok () m') :
    (m'.stack.size : Int) ≤ env.limits.stackItems := by
  rcases acted_or_passed h with ⟨n, -, hn, hstack, -⟩ | ⟨-, -, rfl⟩
  · rw [hstack]
    exact hn
  · exact hm

theorem peak_of_step (h : step env item m = .ok () m') :
    m'.peak = max m.peak m'.stack.size ∨
      item.conditional = false ∧ m.active = false ∧ m' = m.passed := by
  rcases acted_or_passed h with ⟨n, hmove, -, hstack, hpeak⟩ | hpassed
  · rw [peak_move hmove] at hpeak
    rw [hstack]
    exact .inl hpeak
  · exact .inr hpassed

theorem peak_le_of_step (h : step env item m = .ok () m') : m.peak ≤ m'.peak := by
  rcases peak_of_step h with hp | ⟨-, -, rfl⟩
  · omega
  · exact Nat.le_refl _

theorem size_le_peak_of_step (hm : m.stack.size ≤ m.peak) (h : step env item m = .ok () m') :
    m'.stack.size ≤ m'.peak := by
  rcases peak_of_step h with hp | ⟨-, -, rfl⟩
  · omega
  · exact hm

theorem run_cons_eq_ok_iff :
    run env (item :: s) m = .ok () m' ↔
      ∃ n, step env item m = .ok () n ∧ run env s n = .ok () m' := by
  rw [run_cons]
  cases step env item m with
  | error e n => simp
  | ok a n => simp

theorem size_le_of_run (hm : (m.stack.size : Int) ≤ env.limits.stackItems)
    (h : run env s m = .ok () m') : (m'.stack.size : Int) ≤ env.limits.stackItems := by
  induction s generalizing m with
  | nil =>
    cases h
    exact hm
  | cons item s ih =>
    obtain ⟨n, hstep, hrun⟩ := run_cons_eq_ok_iff.mp h
    exact ih (size_le_of_step env hm hstep) hrun

theorem peak_le_of_run (h : run env s m = .ok () m') : m.peak ≤ m'.peak := by
  induction s generalizing m with
  | nil =>
    cases h
    exact Nat.le_refl _
  | cons item s ih =>
    obtain ⟨n, hstep, hrun⟩ := run_cons_eq_ok_iff.mp h
    exact Nat.le_trans (peak_le_of_step hstep) (ih hrun)

theorem size_le_peak_of_run (hm : m.stack.size ≤ m.peak) (h : run env s m = .ok () m') :
    m'.stack.size ≤ m'.peak := by
  induction s generalizing m with
  | nil =>
    cases h
    exact hm
  | cons item s ih =>
    obtain ⟨n, hstep, hrun⟩ := run_cons_eq_ok_iff.mp h
    exact ih (size_le_peak_of_step hm hstep) hrun

theorem exists_prefix_of_peak (h : run env s m = .ok () m') :
    m'.peak = m.peak ∨
      ∃ t n, t <+: s ∧ run env t m = .ok () n ∧ n.stack.size = m'.peak := by
  induction s generalizing m with
  | nil =>
    cases h
    exact .inl rfl
  | cons item s ih =>
    obtain ⟨n, hstep, hrun⟩ := run_cons_eq_ok_iff.mp h
    rcases ih hrun with hlast | ⟨t, k, ht, hk, hsize⟩
    · have hfirst : run env [item] m = .ok () n := run_cons_eq_ok_iff.mpr ⟨n, hstep, rfl⟩
      rcases peak_of_step hstep with hp | ⟨-, -, rfl⟩
      · by_cases hle : n.stack.size ≤ m.peak
        · exact .inl (by omega)
        · exact .inr ⟨[item], n, by simp, hfirst, by omega⟩
      · exact .inl hlast
    · refine .inr ⟨item :: t, k, ?_, run_cons_eq_ok_iff.mpr ⟨n, hstep, hk⟩, hsize⟩
      exact List.cons_prefix_cons.mpr ⟨rfl, ht⟩

theorem exists_run_of_prefix (ht : t <+: s) (h : run env s m = .ok () m') :
    ∃ n u, run env t m = .ok () n ∧ run env u n = .ok () m' := by
  obtain ⟨u, rfl⟩ := ht
  rw [run_append_eq] at h
  cases hr : run env t m with
  | error e n => simp [hr] at h
  | ok a n =>
    rw [hr] at h
    exact ⟨n, u, rfl, h⟩

end Machine

theorem mem_trace_iff {env : Env} {s : Script} {o : Outcome} :
    o ∈ trace env s ↔ ∃ t, t <+: s ∧ o = execute env t := by
  unfold trace
  rw [List.mem_map]
  constructor
  · rintro ⟨k, -, rfl⟩
    exact ⟨s.take k, List.take_prefix k s, rfl⟩
  · rintro ⟨t, ht, rfl⟩
    refine ⟨t.length, ?_, ?_⟩
    · exact List.mem_range.mpr (Nat.lt_succ_of_le ht.length_le)
    · rw [← List.prefix_iff_eq_take.mp ht]

/-- The peak at the end of a run is the largest number of items after an initial part. -/
theorem max_size_trace {env : Env} {s : Script} {m : Machine}
    (h : Machine.run env s {} = .ok () m) :
    ((trace env s).map fun o => o.machine.stack.size).max? = some m.peak := by
  have hmem {t : Script} {n : Machine} (ht : t <+: s) (hn : Machine.run env t {} = .ok () n) :
      n.stack.size ∈ (trace env s).map fun o => o.machine.stack.size := by
    refine List.mem_map.mpr ⟨_, mem_trace_iff.mpr ⟨t, ht, rfl⟩, ?_⟩
    rw [execute_of_run hn]
  rw [List.max?_eq_some_iff]
  constructor
  · rcases Machine.exists_prefix_of_peak h with hzero | ⟨t, n, ht, hn, hsize⟩
    · rw [hzero]
      exact hmem List.nil_prefix (n := {}) rfl
    · rw [← hsize]
      exact hmem ht hn
  · intro size hsize
    obtain ⟨o, ho, rfl⟩ := List.mem_map.mp hsize
    obtain ⟨t, ht, rfl⟩ := mem_trace_iff.mp ho
    obtain ⟨n, u, hn, hu⟩ := Machine.exists_run_of_prefix ht h
    have hstart : ({} : Machine).stack.size ≤ ({} : Machine).peak := Nat.le_refl 0
    rw [execute_of_run hn]
    exact Nat.le_trans (Machine.size_le_peak_of_run hstart hn) (Machine.peak_le_of_run hu)

end HintScript
