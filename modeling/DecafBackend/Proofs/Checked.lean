import DecafBackend.Fault

/-! # Checked computations

    What a checked computation that gave a result tells about its parts, and
    when a checked traversal of a list gives a result.

    * `bind_eq_ok`, `bind_ok` — a sequence of two computations
    * `mapM_eq_ok`, `filterM_eq`, `foldlM_invariant` — traversals of lists -/

namespace DecafBackend.Checked

variable {ε α β σ : Type}

/-- What comes of a sequence comes of its second part. -/
theorem bind_eq_ok {x : Except ε α} {f : α → Except ε β} {b : β} (h : (x >>= f) = .ok b) :
    ∃ a, x = .ok a ∧ f a = .ok b := by
  cases x with
  | ok a => exact ⟨a, rfl, h⟩
  | error e => cases h

/-- A part that succeeds hands its result on. -/
theorem bind_ok {x : Except ε α} {f : α → Except ε β} {a : α} (h : x = .ok a) :
    (x >>= f) = f a := by
  rw [h]
  rfl

/-- A part that fails ends the sequence. -/
theorem bind_error {x : Except ε α} {f : α → Except ε β} {fault : ε} (h : x = .error fault) :
    (x >>= f) = .error fault := by
  rw [h]
  rfl

/-- What comes of a change of a result comes of a result. -/
theorem map_eq_ok {x : Except ε α} {f : α → β} {b : β} (h : f <$> x = .ok b) :
    ∃ a, x = .ok a ∧ f a = b := by
  cases x with
  | ok a => exact ⟨a, rfl, Except.ok.inj h⟩
  | error e => cases h

theorem pure_eq_ok {a b : α} (h : (pure a : Except ε α) = .ok b) : a = b := Except.ok.inj h

/-- A test that a result passes. -/
theorem exists_of_test {x : Except ε α} {test : α → Bool} (h : x.toOption.any test = true) :
    ∃ a, x = .ok a ∧ test a = true := by
  cases x with
  | ok a => exact ⟨a, rfl, h⟩
  | error e => cases h

/-- The results of a traversal stand where their arguments stand. -/
theorem mapM_eq_ok {f : α → Except ε β} {l : List α} {r : List β} (h : l.mapM f = .ok r) :
    r.length = l.length ∧
      ∀ {i : Nat} {a : α}, l[i]? = some a → ∃ b, r[i]? = some b ∧ f a = .ok b := by
  induction l generalizing r with
  | nil =>
      cases h
      exact ⟨rfl, nofun⟩
  | cons x l ih =>
      rw [List.mapM_cons] at h
      obtain ⟨b, hb, h⟩ := bind_eq_ok h
      obtain ⟨bs, hbs, h⟩ := bind_eq_ok h
      cases h
      obtain ⟨hlength, hrest⟩ := ih hbs
      refine ⟨by rw [List.length_cons, List.length_cons, hlength], ?_⟩
      intro i a hi
      cases i with
      | zero =>
          cases hi
          exact ⟨b, rfl, hb⟩
      | succ i => exact hrest hi

/-- A list of parts that succeed succeeds. -/
theorem mapM_ok {f : α → Except ε β} {l : List α} (h : ∀ a ∈ l, ∃ b, f a = .ok b) :
    ∃ r, l.mapM f = .ok r := by
  induction l with
  | nil => exact ⟨[], rfl⟩
  | cons x l ih =>
      obtain ⟨b, hb⟩ := h x List.mem_cons_self
      obtain ⟨r, hr⟩ := ih fun a ha => h a (List.mem_cons_of_mem x ha)
      refine ⟨b :: r, ?_⟩
      rw [List.mapM_cons, hb, hr]
      rfl

/-- A traversal whose steps all give results. -/
theorem mapM_eq {f : α → Except ε β} {g : α → β} {l : List α} (h : ∀ a ∈ l, f a = .ok (g a)) :
    l.mapM f = .ok (l.map g) := by
  induction l with
  | nil => rfl
  | cons x l ih =>
      rw [List.mapM_cons, h x List.mem_cons_self, ih fun a ha => h a (List.mem_cons_of_mem x ha)]
      rfl

/-- A filter with tests that succeed keeps what passes them. -/
theorem filterAuxM_eq {p : α → Except ε Bool} {q : α → Bool} {l acc : List α}
    (h : ∀ a ∈ l, p a = .ok (q a)) :
    l.filterAuxM p acc = .ok ((l.filter q).reverse ++ acc) := by
  induction l generalizing acc with
  | nil => rfl
  | cons x l ih =>
      rw [List.filterAuxM, h x List.mem_cons_self]
      show List.filterAuxM p l (bif q x then x :: acc else acc) = _
      rw [ih fun a ha => h a (List.mem_cons_of_mem x ha)]
      cases hq : q x with
      | true =>
          rw [List.filter_cons_of_pos hq, List.reverse_cons, List.append_assoc]
          rfl
      | false =>
          rw [List.filter_cons_of_neg (by simp [hq])]
          rfl

/-- The answer of a test, if it gives one. -/
def answer : Except ε Bool → Bool
  | .ok b => b
  | .error _ => false

theorem eq_answer {test : Except ε Bool} (h : ∃ b, test = .ok b) : test = .ok (answer test) := by
  obtain ⟨b, rfl⟩ := h
  rfl

/-- A filter with tests that succeed is a plain filter. -/
theorem filterM_eq {p : α → Except ε Bool} {q : α → Bool} {l : List α}
    (h : ∀ a ∈ l, p a = .ok (q a)) : l.filterM p = .ok (l.filter q) := by
  rw [List.filterM, filterAuxM_eq h]
  show Except.ok _ = _
  rw [List.append_nil, List.reverse_reverse]

/-- In a filter that succeeds, every test has succeeded. -/
theorem filterAuxM_ok {p : α → Except ε Bool} {l acc r : List α}
    (h : l.filterAuxM p acc = .ok r) : ∀ a ∈ l, ∃ b, p a = .ok b := by
  induction l generalizing acc with
  | nil => exact nofun
  | cons x l ih =>
      rw [List.filterAuxM] at h
      obtain ⟨b, hb, h⟩ := bind_eq_ok h
      intro a ha
      rcases List.mem_cons.mp ha with rfl | ha
      · exact ⟨b, hb⟩
      · exact ih h a ha

/-- What a filter that gave a result has kept. -/
theorem filterM_eq_ok {p : α → Except ε Bool} {l r : List α} (h : l.filterM p = .ok r) :
    ∃ q : α → Bool, (∀ a ∈ l, p a = .ok (q a)) ∧ r = l.filter q := by
  have hall : ∀ a ∈ l, ∃ b, p a = .ok b := by
    rw [List.filterM] at h
    obtain ⟨r', hr', -⟩ := bind_eq_ok h
    exact filterAuxM_ok hr'
  have hq : ∀ a ∈ l, p a = .ok (answer (p a)) := fun a ha => eq_answer (hall a ha)
  refine ⟨fun a => answer (p a), hq, ?_⟩
  rw [filterM_eq hq] at h
  exact (Except.ok.inj h).symm

/-- A filter whose tests all give results. -/
theorem filterM_ok {p : α → Except ε Bool} {l : List α} (h : ∀ a ∈ l, ∃ b, p a = .ok b) :
    ∃ q : α → Bool, (∀ a ∈ l, p a = .ok (q a)) ∧ l.filterM p = .ok (l.filter q) := by
  have hq : ∀ a ∈ l, p a = .ok (answer (p a)) := fun a ha => eq_answer (h a ha)
  exact ⟨fun a => answer (p a), hq, filterM_eq hq⟩

/-- A traversal that drops what it finds nothing for. -/
theorem filterMapM_eq {f : α → Except ε (Option β)} {g : α → Option β} {l : List α}
    (h : ∀ a ∈ l, f a = .ok (g a)) : l.filterMapM f = .ok (l.filterMap g) := by
  induction l with
  | nil => rfl
  | cons a l ih =>
      rw [List.filterMapM_cons, h a List.mem_cons_self,
        ih fun b hb => h b (List.mem_cons_of_mem a hb), List.filterMap_cons]
      cases g a <;> rfl

/-- A search whose tests all give results. -/
theorem findM?_ok {p : α → Except ε Bool} {l : List α} (h : ∀ a ∈ l, ∃ b, p a = .ok b) :
    ∃ r, l.findM? p = .ok r ∧ ∀ a, r = some a → a ∈ l ∧ p a = .ok true := by
  induction l with
  | nil => exact ⟨none, rfl, nofun⟩
  | cons x l ih =>
      obtain ⟨b, hb⟩ := h x List.mem_cons_self
      cases b with
      | true =>
          refine ⟨some x, by rw [List.findM?, hb]; rfl, ?_⟩
          intro a ha
          cases ha
          exact ⟨List.mem_cons_self, hb⟩
      | false =>
          obtain ⟨r, hr, hfound⟩ := ih fun a ha => h a (List.mem_cons_of_mem x ha)
          refine ⟨r, by rw [List.findM?, hb]; exact hr, ?_⟩
          intro a ha
          exact ⟨List.mem_cons_of_mem x (hfound a ha).1, (hfound a ha).2⟩

/-- What every step keeps holds at the end. -/
theorem foldlM_invariant {f : σ → α → Except ε σ} {l : List α} {s s' : σ} (motive : σ → Prop)
    (h : l.foldlM f s = .ok s') (hs : motive s)
    (hstep : ∀ s a s', a ∈ l → motive s → f s a = .ok s' → motive s') : motive s' := by
  induction l generalizing s with
  | nil =>
      cases h
      exact hs
  | cons x l ih =>
      rw [List.foldlM_cons] at h
      obtain ⟨s₁, hs₁, h⟩ := bind_eq_ok h
      exact ih h (hstep s x s₁ List.mem_cons_self hs hs₁)
        fun s a s' ha => hstep s a s' (List.mem_cons_of_mem x ha)

/-- Every step of a traversal that gave a result gave one. -/
theorem foldlM_steps {f : σ → α → Except ε σ} {l : List α} {s s' : σ}
    (h : l.foldlM f s = .ok s') : ∀ a ∈ l, ∃ before after, f before a = .ok after := by
  induction l generalizing s with
  | nil => exact List.forall_mem_nil _
  | cons x l ih =>
      rw [List.foldlM_cons] at h
      obtain ⟨next, hnext, h⟩ := bind_eq_ok h
      exact List.forall_mem_cons.mpr ⟨⟨s, next, hnext⟩, ih h⟩

/-- A traversal whose steps all give results, as long as an invariant holds. -/
theorem foldlM_ok {f : σ → α → Except ε σ} {l : List α} {s : σ} (motive : σ → Prop)
    (hs : motive s) (hstep : ∀ s a, a ∈ l → motive s → ∃ s', f s a = .ok s' ∧ motive s') :
    ∃ s', l.foldlM f s = .ok s' ∧ motive s' := by
  induction l generalizing s with
  | nil => exact ⟨s, rfl, hs⟩
  | cons x l ih =>
      obtain ⟨s₁, hs₁, hm₁⟩ := hstep s x List.mem_cons_self hs
      obtain ⟨s', hs', hm'⟩ := ih hm₁ fun s a ha => hstep s a (List.mem_cons_of_mem x ha)
      refine ⟨s', ?_, hm'⟩
      rw [List.foldlM_cons, hs₁]
      exact hs'

/-- A traversal of a list is one of its front, and then one of its back. -/
theorem foldlM_append_eq_ok {f : σ → α → Except ε σ} {l₁ l₂ : List α} {s s' : σ}
    (h : (l₁ ++ l₂).foldlM f s = .ok s') :
    ∃ s₁, l₁.foldlM f s = .ok s₁ ∧ l₂.foldlM f s₁ = .ok s' := by
  rw [List.foldlM_append] at h
  exact bind_eq_ok h

end DecafBackend.Checked
