/-! Steps that succeed, taken apart.

A step of a computation that may fail succeeds only if each of its parts does:

    x >>= k = ok b        ↔  ∃ a, x = ok a ∧ k a = ok b            (bind_eq_ok)
    (w >>= k) s = ok (b, t)  ↔  ∃ a u, w s = ok (a, u) ∧ k a u = ok (b, t)   (stateBind_eq_ok)

The proofs about readers and walks use these instead of unfolding the monads. -/

namespace EventFlow

variable {ε σ α β : Type} {as : List α} {bs : List β} {t s : σ} {a : α}

theorem bind_eq_ok {x : Except ε α} {k : α → Except ε β} {b : β} :
    x >>= k = .ok b ↔ ∃ a, x = .ok a ∧ k a = .ok b := by
  cases x with
  | ok a =>
    show k a = .ok b ↔ _
    simp
  | error e => simp [bind, Except.bind]

theorem toOption_eq_some {x : Except ε α} (h : x.toOption = some a) : x = .ok a := by
  cases x with
  | ok b => exact congrArg _ (Option.some.inj h)
  | error e => cases h

/-- What a list of steps gives is given by one of them. -/
theorem exists_of_mem_mapM {f : α → Except ε β} (h : as.mapM f = .ok bs) {b : β} (hb : b ∈ bs) :
    ∃ a ∈ as, f a = .ok b := by
  induction as generalizing bs with
  | nil =>
    cases h
    cases hb
  | cons a as ih =>
    rw [List.mapM_cons] at h
    obtain ⟨c, hc, h⟩ := bind_eq_ok.1 h
    obtain ⟨cs, hcs, h⟩ := bind_eq_ok.1 h
    cases h
    rcases List.mem_cons.1 hb with rfl | hb
    · exact ⟨a, List.mem_cons_self, hc⟩
    · obtain ⟨a', ha', hf⟩ := ih hcs hb
      exact ⟨a', List.mem_cons_of_mem _ ha', hf⟩

theorem ok_of_mem_mapM {f : α → Except ε β} (h : as.mapM f = .ok bs) (ha : a ∈ as) :
    ∃ b, f a = .ok b := by
  induction as generalizing bs with
  | nil => cases ha
  | cons c as ih =>
    rw [List.mapM_cons] at h
    obtain ⟨b, hb, h⟩ := bind_eq_ok.1 h
    obtain ⟨bs', hbs', -⟩ := bind_eq_ok.1 h
    rcases List.mem_cons.1 ha with rfl | ha
    · exact ⟨b, hb⟩
    · exact ih hbs' ha

/-- What holds before a list of steps and is kept by each of them holds after all of them. -/
theorem foldlM_induction {step : σ → α → Except ε σ} {P : List α → σ → Prop}
    (hstep : ∀ done a s t, step s a = .ok t → P done s → P (done ++ [a]) t)
    (h : as.foldlM step s = .ok t) (hs : P [] s) : P as t := by
  suffices hall : ∀ done, P done s → P (done ++ as) t from hall [] hs
  clear hs
  induction as generalizing s with
  | nil =>
    intro done hs
    cases h
    rwa [List.append_nil]
  | cons a rest ih =>
    intro done hs
    rw [List.foldlM_cons, bind_eq_ok] at h
    obtain ⟨u, hu, h⟩ := h
    rw [List.append_cons]
    exact ih h (done ++ [a]) (hstep done a s u hu hs)

theorem stateBind_eq_ok {w : StateT σ (Except ε) α} {k : α → StateT σ (Except ε) β} {b : β} :
    (w >>= k) s = .ok (b, t) ↔ ∃ a u, w s = .ok (a, u) ∧ k a u = .ok (b, t) := by
  show w s >>= (fun p => k p.1 p.2) = .ok (b, t) ↔ _
  rw [bind_eq_ok]
  simp

theorem statePure_eq_ok {b : α} :
    (pure a : StateT σ (Except ε) α) s = .ok (b, t) ↔ a = b ∧ s = t := by
  show (Except.ok (a, s) : Except ε (α × σ)) = .ok (b, t) ↔ _
  simp

/-- What a list of steps with a state gives is given by one of them. -/
theorem exists_of_mem_stateMapM {w : α → StateT σ (Except ε) β} (h : as.mapM w s = .ok (bs, t))
    {b : β} (hb : b ∈ bs) :
    ∃ a ∈ as, ∃ u v, w a u = .ok (b, v) := by
  induction as generalizing s t bs with
  | nil =>
    rw [List.mapM_nil, statePure_eq_ok] at h
    obtain ⟨rfl, -⟩ := h
    cases hb
  | cons a as ih =>
    rw [List.mapM_cons, stateBind_eq_ok] at h
    obtain ⟨c, u, hc, h⟩ := h
    obtain ⟨cs, v, hcs, h⟩ := stateBind_eq_ok.1 h
    obtain ⟨rfl, -⟩ := statePure_eq_ok.1 h
    rcases List.mem_cons.1 hb with rfl | hb
    · exact ⟨a, List.mem_cons_self, s, u, hc⟩
    · obtain ⟨a', ha', hw⟩ := ih hcs hb
      exact ⟨a', List.mem_cons_of_mem _ ha', hw⟩

/-- A step that does not look at the state leaves it as it is. -/
theorem stateLift_eq_ok {x : Except ε α} :
    (liftM x : StateT σ (Except ε) α) s = .ok (a, t) ↔ x = .ok a ∧ s = t := by
  cases x with
  | ok b =>
    show (Except.ok (b, s) : Except ε (α × σ)) = .ok (a, t) ↔ _
    simp
  | error e =>
    show (Except.error e : Except ε (α × σ)) = .ok (a, t) ↔ _
    simp

/-- A list without repetitions stays so when something new is put at its end. -/
theorem nodup_concat (xs : List α) (x : α) (h : xs.Nodup) (hx : x ∉ xs) : (xs ++ [x]).Nodup := by
  rw [List.nodup_append]
  refine ⟨h, by simp, ?_⟩
  intro a ha b hb e
  simp only [List.mem_singleton] at hb
  exact hx (hb ▸ e ▸ ha)

end EventFlow
