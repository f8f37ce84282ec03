/-
# Operations that can fail

What is known of a fallible operation when it does not fail.  `bind_eq_ok` takes a
composed one apart, `foldlM_induction` goes through the steps of a fold, and `foldlM_append` through
those of a fold that lists something.  A map that fails does so as the first of its elements that
has no result (`mapM_eq_error`).
-/

import OmegaAutomata.Fault

namespace OmegaAutomata

variable {ε α β σ : Type}

@[simp] theorem bind_ok (a : α) (f : α → Except ε β) : (Except.ok a >>= f) = f a := rfl

@[simp] theorem bind_error (e : ε) (f : α → Except ε β) : (Except.error e >>= f) = .error e := rfl

@[simp] theorem pure_eq_ok (a : α) : (pure a : Except ε α) = .ok a := rfl

@[simp] theorem throw_eq_error (e : ε) : (throw e : Except ε α) = .error e := rfl

/-- A composed operation gives a result if its parts do. -/
theorem bind_eq_ok {x : Except ε α} {f : α → Except ε β} {b : β} :
    (x >>= f) = .ok b ↔ ∃ a, x = .ok a ∧ f a = .ok b := by
  cases x with
  | error e => simp
  | ok a => simp

/-- A composed operation fails if one of its parts does. -/
theorem bind_eq_error {x : Except ε α} {f : α → Except ε β} {e : ε} :
    (x >>= f) = .error e ↔ x = .error e ∨ ∃ a, x = .ok a ∧ f a = .error e := by
  cases x with
  | error e => simp
  | ok a => simp

theorem map_eq_ok {x : Except ε α} {f : α → β} {b : β} :
    x.map f = .ok b ↔ ∃ a, x = .ok a ∧ f a = b := by
  cases x with
  | error e => simp [Except.map]
  | ok a => simp [Except.map]

/-- What each step of a fold keeps, as a property of the result so far and of the elements that
are left, holds of the result and no element. -/
theorem foldlM_induction {f : σ → α → Except ε σ} {P : List α → σ → Prop} {l : List α} {a b : σ}
    (h : l.foldlM f a = .ok b) (h0 : P l a)
    (hstep : ∀ x rest a b, P (x :: rest) a → f a x = .ok b → P rest b) : P [] b := by
  induction l generalizing a with
  | nil =>
    cases h
    exact h0
  | cons x rest ih =>
    rw [List.foldlM_cons] at h
    obtain ⟨a', ha', h⟩ := bind_eq_ok.1 h
    exact ih h (hstep x rest a a' h0 ha')

/-- **A fold that lists**: if each step adds some elements to what is listed, the fold adds them all
in order. -/
theorem foldlM_append {f : σ → α → Except ε σ} {e : α → List β} {P : List β → σ → Prop}
    {l : List α} {es : List β} {a b : σ} (h : l.foldlM f a = .ok b) (h0 : P es a)
    (hstep : ∀ x ∈ l, ∀ es a b, P es a → f a x = .ok b → P (es ++ e x) b) :
    P (es ++ l.flatMap e) b := by
  induction l generalizing a es with
  | nil =>
    cases h
    rwa [List.flatMap_nil, List.append_nil]
  | cons x rest ih =>
    rw [List.foldlM_cons] at h
    obtain ⟨a', ha', h⟩ := bind_eq_ok.1 h
    rw [List.flatMap_cons, ← List.append_assoc]
    exact ih h (hstep x List.mem_cons_self es a a' h0 ha') fun y hy =>
      hstep y (List.mem_cons_of_mem x hy)

/-- **A fold that lists** has a result if each step has one that lists some elements more. -/
theorem exists_foldlM_append {f : σ → α → Except ε σ} {e : α → List β} {P : List β → σ → Prop}
    {l : List α} {es : List β} {a : σ} (h0 : P es a)
    (hstep : ∀ x ∈ l, ∀ es a, P es a → ∃ b, f a x = .ok b ∧ P (es ++ e x) b) :
    ∃ b, l.foldlM f a = .ok b ∧ P (es ++ l.flatMap e) b := by
  induction l generalizing a es with
  | nil => exact ⟨a, rfl, by rwa [List.flatMap_nil, List.append_nil]⟩
  | cons x rest ih =>
    obtain ⟨b, hb, hP⟩ := hstep x List.mem_cons_self es a h0
    obtain ⟨c, hc, hP⟩ := ih hP fun y hy => hstep y (List.mem_cons_of_mem x hy)
    exact ⟨c, by rw [List.foldlM_cons, hb, bind_ok, hc],
      by rwa [List.flatMap_cons, ← List.append_assoc]⟩

/-- A fallible map gives the results of its elements. -/
theorem mapM_eq_ok {f : α → Except ε β} {g : α → β} {l : List α} (h : ∀ x ∈ l, f x = .ok (g x)) :
    l.mapM f = .ok (l.map g) := by
  induction l with
  | nil => rfl
  | cons x rest ih =>
    rw [List.mapM_cons, h x List.mem_cons_self, ih fun y hy => h y (List.mem_cons_of_mem x hy)]
    rfl

/-- A fallible map has a result for each element, and each result is that of one. -/
theorem of_mapM_eq_ok {f : α → Except ε β} {l : List α} {r : List β} (h : l.mapM f = .ok r) :
    r.length = l.length ∧ ∀ y ∈ r, ∃ x ∈ l, f x = .ok y := by
  induction l generalizing r with
  | nil =>
    cases h
    exact ⟨rfl, fun y hy => absurd hy List.not_mem_nil⟩
  | cons x rest ih =>
    rw [List.mapM_cons] at h
    obtain ⟨y, hy, h⟩ := bind_eq_ok.1 h
    obtain ⟨ys, hys, h⟩ := bind_eq_ok.1 h
    cases h
    obtain ⟨hlength, hmem⟩ := ih hys
    refine ⟨congrArg Nat.succ hlength, fun z hz => ?_⟩
    rcases List.mem_cons.1 hz with rfl | hz
    · exact ⟨x, List.mem_cons_self, hy⟩
    · obtain ⟨w, hw, hfw⟩ := hmem z hz
      exact ⟨w, List.mem_cons_of_mem x hw, hfw⟩

/-- A fallible map has a result if each element has one. -/
theorem exists_mapM_eq_ok {f : α → Except ε β} {l : List α} (h : ∀ x ∈ l, ∃ y, f x = .ok y) :
    ∃ r, l.mapM f = .ok r := by
  induction l with
  | nil => exact ⟨[], rfl⟩
  | cons x rest ih =>
    obtain ⟨y, hy⟩ := h x List.mem_cons_self
    obtain ⟨ys, hys⟩ := ih fun z hz => h z (List.mem_cons_of_mem x hz)
    exact ⟨y :: ys, by rw [List.mapM_cons, hy, bind_ok, hys]; rfl⟩

/-- A fallible map only has a result if each element has one. -/
theorem forall_of_mapM_eq_ok {f : α → Except ε β} {l : List α} {r : List β}
    (h : l.mapM f = .ok r) : ∀ x ∈ l, ∃ y, f x = .ok y := by
  induction l generalizing r with
  | nil => exact fun x hx => absurd hx List.not_mem_nil
  | cons x rest ih =>
    rw [List.mapM_cons] at h
    obtain ⟨y, hy, h⟩ := bind_eq_ok.1 h
    obtain ⟨ys, hys, -⟩ := bind_eq_ok.1 h
    exact List.forall_mem_cons.2 ⟨⟨y, hy⟩, ih hys⟩

/-- What the results of a fallible map have in common with the elements. -/
theorem map_eq_of_mapM_eq_ok {γ : Type} {f : α → Except ε β} {g : β → γ} {k : α → γ} {l : List α}
    {r : List β} (h : l.mapM f = .ok r) (hf : ∀ x y, f x = .ok y → g y = k x) :
    r.map g = l.map k := by
  induction l generalizing r with
  | nil =>
    cases h
    rfl
  | cons x rest ih =>
    rw [List.mapM_cons] at h
    obtain ⟨y, hy, h⟩ := bind_eq_ok.1 h
    obtain ⟨ys, hys, h⟩ := bind_eq_ok.1 h
    cases h
    rw [List.map_cons, List.map_cons, hf x y hy, ih hys]

/-- **A fallible map fails** as its first element without a result does. -/
theorem mapM_eq_error {f : α → Except ε β} {l : List α} {e : ε} :
    l.mapM f = .error e ↔ ∃ before x after, l = before ++ x :: after ∧
      (∀ y ∈ before, ∃ z, f y = .ok z) ∧ f x = .error e := by
  induction l with
  | nil => simp
  | cons x rest ih =>
    rw [List.mapM_cons, bind_eq_error]
    constructor
    · rintro (hx | ⟨y, hy, h⟩)
      · exact ⟨[], x, rest, rfl, fun y hy => absurd hy List.not_mem_nil, hx⟩
      · rcases bind_eq_error.1 h with h | ⟨ys, -, h⟩
        · obtain ⟨before, z, after, rfl, hbefore, hz⟩ := ih.1 h
          exact ⟨x :: before, z, after, rfl, List.forall_mem_cons.2 ⟨⟨y, hy⟩, hbefore⟩, hz⟩
        · contradiction
    · rintro ⟨before, z, after, heq, hbefore, hz⟩
      cases before with
      | nil =>
        cases heq
        exact .inl hz
      | cons w before =>
        cases heq
        obtain ⟨⟨y, hy⟩, hbefore⟩ := List.forall_mem_cons.1 hbefore
        exact .inr ⟨y, hy, bind_eq_error.2 (.inl (ih.2 ⟨before, z, after, rfl, hbefore, hz⟩))⟩

/-- Fallible maps of lists fail as the map of all their elements does. -/
theorem mapM_flatMap_eq_error {γ : Type} {f : α → Except ε β} {g : γ → List α} {l : List γ}
    {e : ε} : (l.flatMap g).mapM f = .error e ↔ (l.mapM fun x => (g x).mapM f) = .error e := by
  induction l with
  | nil => simp
  | cons x rest ih =>
    rw [List.flatMap_cons, List.mapM_append, List.mapM_cons, bind_eq_error, bind_eq_error]
    refine or_congr_right (exists_congr fun ys => and_congr_right fun _ => ?_)
    rw [bind_eq_error, bind_eq_error, ih]
    simp

/-- Fallible maps fail alike if their elements do. -/
theorem mapM_map_eq_error {γ δ : Type} {f : α → Except ε β} {g : γ → Except ε δ} {k : α → γ}
    {l : List α} {e : ε} (h : ∀ x e, f x = .error e ↔ g (k x) = .error e) :
    l.mapM f = .error e ↔ (l.map k).mapM g = .error e := by
  induction l with
  | nil => simp
  | cons x rest ih =>
    rw [List.map_cons, List.mapM_cons, List.mapM_cons]
    cases hx : f x with
    | error e' => rw [(h x e').1 hx, bind_error, bind_error]; simp
    | ok y =>
      cases hy : g (k x) with
      | error e' =>
        rw [(h x e').2 hy] at hx
        contradiction
      | ok z =>
        rw [bind_ok, bind_ok, bind_eq_error, bind_eq_error, ih]
        simp

/-- A fold has a result if each element has one, whatever came before. -/
theorem exists_foldlM_eq_ok {f : σ → α → Except ε σ} {l : List α}
    (h : ∀ x ∈ l, ∀ a, ∃ b, f a x = .ok b) (a : σ) : ∃ b, l.foldlM f a = .ok b := by
  induction l generalizing a with
  | nil => exact ⟨a, rfl⟩
  | cons x rest ih =>
    obtain ⟨b, hb⟩ := h x List.mem_cons_self a
    obtain ⟨c, hc⟩ := ih (fun y hy => h y (List.mem_cons_of_mem x hy)) b
    exact ⟨c, by rw [List.foldlM_cons, hb, bind_ok, hc]⟩

/-- A fallible filter gives the results of its elements. -/
theorem filterMapM_eq_ok {f : α → Except ε (Option β)} {g : α → Option β} {l : List α}
    (h : ∀ x ∈ l, f x = .ok (g x)) : l.filterMapM f = .ok (l.filterMap g) := by
  induction l with
  | nil => rfl
  | cons x rest ih =>
    rw [List.filterMapM_cons, h x List.mem_cons_self,
      ih fun y hy => h y (List.mem_cons_of_mem x hy), List.filterMap_cons]
    cases g x <;> rfl

/-- A fallible search gives what the results of its elements say. -/
theorem anyM_eq_ok {f : α → Except ε Bool} {g : α → Bool} {l : List α}
    (h : ∀ x ∈ l, f x = .ok (g x)) : l.anyM f = .ok (l.any g) := by
  induction l with
  | nil => rfl
  | cons x rest ih =>
    rw [List.anyM, h x List.mem_cons_self, bind_ok, List.any_cons]
    cases g x with
    | true => rfl
    | false => exact ih fun y hy => h y (List.mem_cons_of_mem x hy)

/-- A fallible search finds what the results of its elements say. -/
theorem findM?_eq_ok {f : α → Except ε Bool} {g : α → Bool} {l : List α}
    (h : ∀ x ∈ l, f x = .ok (g x)) : l.findM? f = .ok (l.find? g) := by
  induction l with
  | nil => rfl
  | cons x rest ih =>
    rw [List.findM?, h x List.mem_cons_self, bind_ok, List.find?_cons]
    cases g x with
    | true => rfl
    | false => exact ih fun y hy => h y (List.mem_cons_of_mem x hy)

/-- If each piece of what is written is read back, the whole is. -/
theorem mapM_map_eq_some {f : β → Option α} {write : α → β} {l : List α}
    (h : ∀ x ∈ l, f (write x) = some x) : (l.map write).mapM f = some l := by
  induction l with
  | nil => rfl
  | cons x l ih =>
    obtain ⟨hx, hl⟩ := List.forall_mem_cons.1 h
    rw [List.map_cons, List.mapM_cons, hx, ih hl]
    rfl

end OmegaAutomata
