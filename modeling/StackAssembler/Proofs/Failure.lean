import Mathlib.Data.List.Forall2

set_option autoImplicit false
set_option relaxedAutoImplicit false

namespace StackAssembler

variable {ε α β γ : Type}

theorem bind_eq_ok {x : Except ε α} {f : α → Except ε β} {b : β} :
    (x >>= f) = .ok b ↔ ∃ a, x = .ok a ∧ f a = .ok b := by
  cases x with
  | error => simp [bind, Except.bind]
  | ok a => simp [bind, Except.bind]

theorem bind_eq_error {x : Except ε α} {f : α → Except ε β} {e : ε} :
    (x >>= f) = .error e ↔ x = .error e ∨ ∃ a, x = .ok a ∧ f a = .error e := by
  cases x with
  | error => simp [bind, Except.bind]
  | ok a => simp [bind, Except.bind]

theorem map_eq_ok {x : Except ε α} {f : α → β} {b : β} :
    x.map f = .ok b ↔ ∃ a, x = .ok a ∧ f a = b := by
  cases x with
  | error => simp [Except.map]
  | ok a => simp [Except.map]

theorem map_eq_error {x : Except ε α} {f : α → β} {e : ε} :
    x.map f = .error e ↔ x = .error e := by
  cases x with
  | error => simp [Except.map]
  | ok a => simp [Except.map]

theorem map_bind_eq (x : Except ε α) (f : α → β) (g : β → Except ε γ) :
    (x.map f >>= g) = x >>= fun a => g (f a) := by
  cases x <;> rfl

theorem map_of_bind (x : Except ε α) (f : α → Except ε β) (g : β → γ) :
    (x >>= f).map g = x >>= fun a => (f a).map g := by
  cases x <;> rfl

theorem mapError_of_bind (x : Except ε α) (f : α → Except ε β) (g : ε → γ) :
    (x >>= f).mapError g = x.mapError g >>= fun a => (f a).mapError g := by
  cases x <;> rfl

theorem mapM_eq_ok {f : α → Except ε β} {xs : List α} {ys : List β} :
    xs.mapM f = .ok ys ↔ List.Forall₂ (fun x y => f x = .ok y) xs ys := by
  induction xs generalizing ys with
  | nil =>
      rw [List.forall₂_nil_left_iff]
      constructor
      · intro same
        cases same
        rfl
      · rintro rfl
        rfl
  | cons x rest ih =>
      rw [List.mapM_cons, List.forall₂_cons_left_iff, bind_eq_ok]
      constructor
      · rintro ⟨y, first, behind⟩
        obtain ⟨others, remaining, same⟩ := bind_eq_ok.mp behind
        cases same
        exact ⟨y, others, first, ih.mp remaining, rfl⟩
      · rintro ⟨y, others, first, remaining, rfl⟩
        exact ⟨y, first, bind_eq_ok.mpr ⟨others, ih.mpr remaining, rfl⟩⟩

theorem mapM_succeeds {f : α → Except ε β} {xs : List α} :
    (∃ ys, xs.mapM f = .ok ys) ↔ ∀ x ∈ xs, ∃ y, f x = .ok y := by
  induction xs with
  | nil => simp [pure, Except.pure]
  | cons first rest ih =>
      rw [List.forall_mem_cons, ← ih, List.mapM_cons]
      simp only [bind_eq_ok]
      constructor
      · rintro ⟨_, y, passes, ys, remaining, _⟩
        exact ⟨⟨y, passes⟩, ys, remaining⟩
      · rintro ⟨⟨y, passes⟩, ys, remaining⟩
        exact ⟨_, y, passes, ys, remaining, rfl⟩

theorem mapM_eq_error {f : α → Except ε β} {xs : List α} {error : ε} :
    xs.mapM f = .error error ↔ ∃ before x after, xs = before ++ x :: after ∧
      (∀ y ∈ before, ∃ b, f y = .ok b) ∧ f x = .error error := by
  induction xs with
  | nil =>
      constructor
      · intro fails
        cases fails
      · rintro ⟨before, x, after, parts, _⟩
        cases before <;> cases parts
  | cons first rest ih =>
      have peeled : (first :: rest).mapM f = .error error ↔
          f first = .error error ∨ (∃ b, f first = .ok b) ∧ rest.mapM f = .error error := by
        rw [List.mapM_cons, bind_eq_error]
        simp only [bind_eq_error]
        simp [pure, Except.pure]
      rw [peeled, ih]
      constructor
      · rintro (fails | ⟨passes, before, x, after, rfl, earlier, fails⟩)
        · exact ⟨[], first, rest, rfl, List.forall_mem_nil _, fails⟩
        · exact ⟨first :: before, x, after, rfl, List.forall_mem_cons.mpr ⟨passes, earlier⟩, fails⟩
      · rintro ⟨before, x, after, parts, earlier, fails⟩
        cases before with
        | nil =>
            cases parts
            exact .inl fails
        | cons head before =>
            cases parts
            rw [List.forall_mem_cons] at earlier
            exact .inr ⟨earlier.1, before, x, after, rfl, earlier.2, fails⟩

theorem mapM_map_of_mapError {f : α → Except ε β} {g : γ → Except ε β} {translate : α → γ}
    {describe : ε → ε} {xs : List α}
    (same : ∀ x ∈ xs, g (translate x) = (f x).mapError describe) :
    (xs.map translate).mapM g = (xs.mapM f).mapError describe := by
  induction xs with
  | nil => rfl
  | cons x rest ih =>
      rw [List.forall_mem_cons] at same
      rw [List.map_cons, List.mapM_cons, List.mapM_cons, same.1, ih same.2, mapError_of_bind]
      simp only [mapError_of_bind]
      rfl

end StackAssembler
