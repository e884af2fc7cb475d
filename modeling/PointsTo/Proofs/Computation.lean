import PointsTo.Service

/-!
# Inverting computations

A computation on the state of a run that succeeds has taken each of its steps with
success.  This file reads such successes backwards: through sequencing, through the
elementary operations on the state, and through loops over lists.

Main results:

- Theorem {lit}`bind_eq_ok`: a sequence succeeds when both parts do.
- Theorem {lit}`forM_rel`: what every step of a loop does to the state, the loop
  does; and each step is taken in between.
- Theorems {lit}`Service.run_forM` and {lit}`Service.run_foldlM`: a conversation that
  is a loop is carried out as a loop.
-/

namespace PointsTo

variable {ε σ α β : Type}

/-! ## Elementary operations -/

/-- A sequence succeeds exactly when its first part does and the second succeeds on
what the first has left. -/
theorem bind_eq_ok {x : EStateM ε σ α} {f : α → EStateM ε σ β} {s t : σ} {b : β} :
    (x >>= f) s = .ok b t ↔ ∃ a u, x s = .ok a u ∧ f a u = .ok b t := by
  show EStateM.bind x f s = .ok b t ↔ _
  unfold EStateM.bind
  constructor
  · intro h
    split at h
    · rename_i a u hx
      exact ⟨a, u, hx, h⟩
    · cases h
  · rintro ⟨a, u, hx, hf⟩
    rw [hx]
    exact hf

/-- Returning a value changes nothing. -/
theorem pure_eq_ok {a b : α} {s t : σ} :
    (pure a : EStateM ε σ α) s = .ok b t ↔ a = b ∧ s = t := by
  show EStateM.Result.ok a s = .ok b t ↔ _
  simp

/-- Reading the state gives it, and changes nothing. -/
theorem get_eq_ok {s t a : σ} : (get : EStateM ε σ σ) s = .ok a t ↔ s = a ∧ s = t := by
  show EStateM.Result.ok s s = .ok a t ↔ _
  simp

/-- Writing the state replaces it. -/
theorem set_eq_ok {s t u : σ} {x : PUnit} :
    (set u : EStateM ε σ PUnit) s = .ok x t ↔ t = u := by
  show EStateM.Result.ok _ u = .ok x t ↔ _
  simp [eq_comm]

/-- A change of the state replaces it by what the change makes of it. -/
theorem modify_eq_ok {f : σ → σ} {s t : σ} {x : PUnit} :
    (modify f : EStateM ε σ PUnit) s = .ok x t ↔ t = f s := by
  show EStateM.Result.ok _ (f s) = .ok x t ↔ _
  simp [eq_comm]

/-- Failing gives no value. -/
theorem throw_eq_ok {e : ε} {a : α} {s t : σ} :
    (throw e : EStateM ε σ α) s = .ok a t ↔ False := by
  show EStateM.Result.error e s = .ok a t ↔ _
  simp

/-- A sequence gives a value if its parts do. -/
theorem except_bind_eq_ok {x : Except ε α} {f : α → Except ε β} {b : β} :
    (x >>= f) = .ok b ↔ ∃ a, x = .ok a ∧ f a = .ok b := by
  cases x with
  | error e => simp [bind, Except.bind]
  | ok a => simp [bind, Except.bind]

/-- A computation that may fail by itself leaves the state alone. -/
theorem SolverM.ofExcept_eq_ok {x : Except Error α} {a : α} {s t : Solver} :
    SolverM.ofExcept x s = .ok a t ↔ x = .ok a ∧ s = t := by
  cases x with
  | error e => simp [SolverM.ofExcept, throw_eq_ok]
  | ok b =>
      simp only [SolverM.ofExcept, pure_eq_ok, Except.ok.injEq]

/-! ## Loops -/

/-- A loop over a list relates its two states if every step does that comes after
such a part of the loop, and every element has its step somewhere in between. -/
theorem forM_rel {f : α → EStateM ε σ PUnit} {R : σ → σ → Prop} (hrefl : ∀ s, R s s)
    (htrans : ∀ {s t u}, R s t → R t u → R s u) {l : List α} {s t : σ}
    (h : l.forM f s = .ok ⟨⟩ t)
    (hstep : ∀ a ∈ l, ∀ {u v}, R s u → f a u = .ok ⟨⟩ v → R u v) :
    R s t ∧ ∀ a ∈ l, ∃ u v, R s u ∧ f a u = .ok ⟨⟩ v ∧ R v t := by
  induction l generalizing s with
  | nil =>
      obtain ⟨_, rfl⟩ := pure_eq_ok.1 h
      exact ⟨hrefl _, by simp⟩
  | cons b l ih =>
      obtain ⟨⟨⟩, u, hb, hl⟩ := bind_eq_ok.1 h
      have hsu : R s u := hstep b List.mem_cons_self (hrefl s) hb
      obtain ⟨hut, hall⟩ := ih hl fun a ha _ _ hu hf =>
        hstep a (List.mem_cons_of_mem _ ha) (htrans hsu hu) hf
      refine ⟨htrans hsu hut, ?_⟩
      intro a ha
      rcases List.mem_cons.1 ha with rfl | ha
      · exact ⟨s, u, hrefl _, hb, hut⟩
      · obtain ⟨v, w, huv, hvw, hwt⟩ := hall a ha
        exact ⟨v, w, htrans hsu huv, hvw, hwt⟩

/-- The same for loops with an accumulator: every step keeps an invariant that connects
it to the state. -/
theorem foldlM_rel {f : β → α → EStateM ε σ β} {R : σ → σ → Prop} {J : β → σ → Prop}
    (hrefl : ∀ s, R s s) (htrans : ∀ {s t u}, R s t → R t u → R s u) {l : List α} {b c : β}
    {s t : σ} (h : l.foldlM f b s = .ok c t) (hb : J b s)
    (hstep : ∀ a ∈ l, ∀ {b c u v}, R s u → J b u → f b a u = .ok c v → R u v ∧ J c v) :
    R s t ∧ J c t := by
  induction l generalizing b s with
  | nil =>
      obtain ⟨rfl, rfl⟩ := pure_eq_ok.1 h
      exact ⟨hrefl _, hb⟩
  | cons x l ih =>
      rw [List.foldlM_cons] at h
      obtain ⟨d, u, hx, hl⟩ := bind_eq_ok.1 h
      obtain ⟨hsu, hd⟩ := hstep x List.mem_cons_self (hrefl s) hb hx
      obtain ⟨hut, hc⟩ := ih hl hd fun a ha _ _ _ _ hu hJ hf =>
        hstep a (List.mem_cons_of_mem _ ha) (htrans hsu hu) hJ hf
      exact ⟨htrans hsu hut, hc⟩

/-- Every element has its step somewhere in between. -/
theorem foldlM_steps {f : β → α → EStateM ε σ β} {R : σ → σ → Prop} {J : β → σ → Prop}
    (hrefl : ∀ s, R s s) (htrans : ∀ {s t u}, R s t → R t u → R s u) {l : List α} {b c : β}
    {s t : σ} (h : l.foldlM f b s = .ok c t) (hb : J b s)
    (hstep : ∀ a ∈ l, ∀ {b c u v}, R s u → J b u → f b a u = .ok c v → R u v ∧ J c v) :
    ∀ a ∈ l, ∃ b c u v, R s u ∧ J b u ∧ f b a u = .ok c v ∧ R v t := by
  induction l generalizing b s with
  | nil => simp
  | cons x l ih =>
      rw [List.foldlM_cons] at h
      obtain ⟨d, u, hx, hl⟩ := bind_eq_ok.1 h
      obtain ⟨hsu, hd⟩ := hstep x List.mem_cons_self (hrefl s) hb hx
      have hrest : ∀ a ∈ l, ∀ {b c v w}, R u v → J b v → f b a v = .ok c w → R v w ∧ J c w :=
        fun a ha _ _ _ _ huv hJ hf => hstep a (List.mem_cons_of_mem _ ha) (htrans hsu huv) hJ hf
      intro a ha
      rcases List.mem_cons.1 ha with rfl | ha
      · exact ⟨b, d, s, u, hrefl s, hb, hx, (foldlM_rel hrefl htrans hl hd hrest).1⟩
      · obtain ⟨b', c', v, w, huv, hJ, hf, hwt⟩ := ih hl hd hrest a ha
        exact ⟨b', c', v, w, htrans hsu huv, hJ, hf, hwt⟩

/-! ## Conversations -/

namespace Service

/-- What a function makes of the value that a conversation ends with. -/
theorem run_map {x : Service α} {f : α → β} {env : Setting} {b : β} {s t : Solver} :
    (x.bind fun a => .done (f a)).run env s = .ok b t ↔
      ∃ a, b = f a ∧ x.run env s = .ok a t := by
  simp only [run_bind, bind_eq_ok, run_done, pure_eq_ok]
  constructor
  · rintro ⟨a, _, ha, rfl, rfl⟩
    exact ⟨a, rfl, ha⟩
  · rintro ⟨a, rfl, ha⟩
    exact ⟨a, t, ha, rfl, rfl⟩

variable (env : Setting)

/-- A loop of conversations is carried out as the loop of what these are carried out as. -/
theorem run_forM (f : α → Service PUnit) (l : List α) :
    (l.forM f).run env = l.forM fun a => (f a).run env := by
  induction l with
  | nil => rfl
  | cons a l ih =>
      show ((f a).bind fun _ => l.forM f).run env = _
      rw [run_bind, ih]
      rfl

/-- So is a loop with an accumulator. -/
theorem run_foldlM (f : β → α → Service β) (l : List α) (b : β) :
    (l.foldlM f b).run env = l.foldlM (fun b a => (f b a).run env) b := by
  induction l generalizing b with
  | nil => rfl
  | cons a l ih =>
      rw [List.foldlM_cons, List.foldlM_cons, bind_eq, run_bind]
      congr 1
      funext c
      exact ih c

variable {env}

/-- A conversation about a value that may be missing. -/
theorem option_forM_cases {f : α → Service PUnit} {o : Option α} {x : PUnit} {s t : Solver}
    (h : (o.forM f).run env s = .ok x t) :
    o = none ∧ s = t ∨ ∃ a, o = some a ∧ (f a).run env s = .ok ⟨⟩ t := by
  cases o with
  | none => exact .inl ⟨rfl, (pure_eq_ok.1 h).2⟩
  | some a => exact .inr ⟨a, rfl, h⟩

/-- A loop that collects results relates its two states if every step does, and what
holds of each result, as it is found and later on, holds of all in the end. -/
theorem filterMapM_rel {f : α → Service (Option β)} {R : Solver → Solver → Prop}
    {Q : Solver → β → Prop} (hrefl : ∀ s, R s s)
    (htrans : ∀ {s t u}, R s t → R t u → R s u)
    (hstable : ∀ {s t b}, Q s b → R s t → Q t b) {l : List α} {bs : List β} {s t : Solver}
    (h : (l.filterMapM f).run env s = .ok bs t)
    (hstep : ∀ a ∈ l, ∀ {b u v}, R s u → (f a).run env u = .ok b v →
      R u v ∧ ∀ x ∈ b, Q v x) :
    R s t ∧ ∀ b ∈ bs, Q t b := by
  induction l generalizing s bs with
  | nil =>
      obtain ⟨rfl, rfl⟩ := pure_eq_ok.1 h
      exact ⟨hrefl _, by simp⟩
  | cons a l ih =>
      rw [List.filterMapM_cons, bind_eq, run_bind, bind_eq_ok] at h
      obtain ⟨b, u, ha, h⟩ := h
      obtain ⟨hsu, hb⟩ := hstep a List.mem_cons_self (hrefl s) ha
      have hrest : ∀ a' ∈ l, ∀ {b v w}, R u v → (f a').run env v = .ok b w →
          R v w ∧ ∀ x ∈ b, Q w x :=
        fun a' ha' _ _ _ huv => hstep a' (List.mem_cons_of_mem _ ha') (htrans hsu huv)
      cases b with
      | none =>
          obtain ⟨hut, hbs⟩ := ih h hrest
          exact ⟨htrans hsu hut, hbs⟩
      | some b =>
          simp only [bind_eq, run_bind, bind_eq_ok] at h
          obtain ⟨cs, v, hcs, h⟩ := h
          obtain ⟨rfl, rfl⟩ := pure_eq_ok.1 h
          obtain ⟨huv, hall⟩ := ih hcs hrest
          refine ⟨htrans hsu huv, ?_⟩
          intro x hx
          rcases List.mem_cons.1 hx with rfl | hx
          · exact hstable (hb _ rfl) huv
          · exact hall x hx

/-- What a step of a loop that collects results finds is among the results. -/
theorem mem_of_filterMapM {f : α → Service (Option β)} {R : Solver → Solver → Prop}
    (hrefl : ∀ s, R s s) (htrans : ∀ {s t u}, R s t → R t u → R s u) {l : List α} {bs : List β}
    {s t : Solver} (h : (l.filterMapM f).run env s = .ok bs t)
    (hstep : ∀ a ∈ l, ∀ {b u v}, (f a).run env u = .ok b v → R u v) :
    R s t ∧ ∀ a ∈ l, ∃ b u v, (f a).run env u = .ok b v ∧ R v t ∧ ∀ x ∈ b, x ∈ bs := by
  induction l generalizing s bs with
  | nil =>
      obtain ⟨_, rfl⟩ := pure_eq_ok.1 h
      exact ⟨hrefl _, by simp⟩
  | cons a l ih =>
      rw [List.filterMapM_cons, bind_eq, run_bind, bind_eq_ok] at h
      obtain ⟨b, u, ha, h⟩ := h
      have hsu := hstep a List.mem_cons_self ha
      have hrest : ∀ a' ∈ l, ∀ {b v w}, (f a').run env v = .ok b w → R v w :=
        fun a' ha' => hstep a' (List.mem_cons_of_mem _ ha')
      cases b with
      | none =>
          obtain ⟨hut, hall⟩ := ih h hrest
          refine ⟨htrans hsu hut, ?_⟩
          intro a' ha'
          rcases List.mem_cons.1 ha' with rfl | ha'
          · exact ⟨none, s, u, ha, hut, by simp⟩
          · exact hall a' ha'
      | some b =>
          simp only [bind_eq, run_bind, bind_eq_ok] at h
          obtain ⟨cs, v, hcs, h⟩ := h
          obtain ⟨rfl, rfl⟩ := pure_eq_ok.1 h
          obtain ⟨hut, hall⟩ := ih hcs hrest
          refine ⟨htrans hsu hut, ?_⟩
          intro a' ha'
          rcases List.mem_cons.1 ha' with rfl | ha'
          · refine ⟨some b, s, u, ha, hut, ?_⟩
            rintro _ ⟨⟩
            exact List.mem_cons_self
          · obtain ⟨b', w, y, hy, hyt, hmem⟩ := hall a' ha'
            exact ⟨b', w, y, hy, hyt, fun x hx => List.mem_cons_of_mem _ (hmem x hx)⟩

end Service

end PointsTo
