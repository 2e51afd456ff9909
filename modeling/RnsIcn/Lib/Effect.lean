import Mathlib.Algebra.BigOperators.Group.List.Basic
import Mathlib.Algebra.GroupWithZero.Nat

/-! # Stateful code that may raise

Code changes a state and returns a value or raises. The changes made before a
raise stay. A triple says what holds after the code has returned and after it has
raised, and there is one rule for each way to build code.
-/

abbrev Effect (ε σ : Type) := ExceptT ε (StateM σ)

namespace Effect

variable {ε σ α β : Type}

/-- Run the code from a state. -/
def exec (m : Effect ε σ α) (s : σ) : Except ε α × σ := m.run.run s

variable {m : Effect ε σ α} {f : α → Effect ε σ β} {s : σ}

@[simp] theorem exec_pure (a : α) (s : σ) : exec (pure a : Effect ε σ α) s = (.ok a, s) := rfl

@[simp] theorem exec_throw (e : ε) (s : σ) : exec (throw e : Effect ε σ α) s = (.error e, s) := rfl

@[simp] theorem exec_get (s : σ) : exec (get : Effect ε σ σ) s = (.ok s, s) := rfl

@[simp] theorem exec_modify (g : σ → σ) (s : σ) :
    exec (modify g : Effect ε σ PUnit) s = (.ok ⟨⟩, g s) := rfl

@[simp] theorem exec_ofExcept (x : Except ε α) (s : σ) :
    exec (ofExcept x : Effect ε σ α) s = (x, s) := by
  cases x <;> rfl

theorem exec_bind (m : Effect ε σ α) (f : α → Effect ε σ β) (s : σ) :
    exec (m >>= f) s = match exec m s with
      | (.ok a, t) => exec (f a) t
      | (.error e, t) => (.error e, t) := by
  change (exec m s |> fun p => ExceptT.bindCont f p.1 |>.run p.2) = _
  rcases exec m s with ⟨_ | a, t⟩ <;> rfl

theorem exec_tryCatch (m : Effect ε σ α) (h : ε → Effect ε σ α) (s : σ) :
    exec (tryCatch m h) s = match exec m s with
      | (.ok a, t) => (.ok a, t)
      | (.error e, t) => exec (h e) t := by
  change (exec m s |> fun p => (match p.1 with
    | .ok a => pure (.ok a)
    | .error e => (h e).run : StateM σ (Except ε α)).run p.2) = _
  rcases exec m s with ⟨_ | a, t⟩ <;> rfl

theorem exec_forM_cons (a : α) (l : List α) (f : α → Effect ε σ PUnit) (s : σ) :
    exec ((a :: l).forM f) s = match exec (f a) s with
      | (.ok _, t) => exec (l.forM f) t
      | (.error e, t) => (.error e, t) := by
  rw [show (a :: l).forM f = (f a >>= fun _ => l.forM f) from rfl, exec_bind]
  rcases exec (f a) s with ⟨_ | a, t⟩ <;> rfl

def Triple (P : σ → Prop) (m : Effect ε σ α) (Q : α → σ → Prop) (E : σ → Prop) : Prop :=
  ∀ s, P s → match exec m s with
    | (.ok a, t) => Q a t
    | (.error _, t) => E t

def Keeps (I : σ → Prop) (m : Effect ε σ α) : Prop := Triple I m (fun _ => I) I

variable {P P' I E E' : σ → Prop} {Q Q' : α → σ → Prop} {R : β → σ → Prop}

theorem Triple.conseq (h : Triple P m Q E) (hp : ∀ s, P' s → P s) (hq : ∀ a s, Q a s → Q' a s)
    (he : ∀ s, E s → E' s) : Triple P' m Q' E' := by
  intro s hs
  have hm := h s (hp s hs)
  rcases hx : exec m s with ⟨_ | a, t⟩
  · rw [hx] at hm
    exact he t hm
  · rw [hx] at hm
    exact hq a t hm

theorem Triple.pre (h : Triple P m Q E) (hp : ∀ s, P' s → P s) : Triple P' m Q E :=
  h.conseq hp (fun _ _ hq => hq) fun _ he => he

theorem Triple.post (h : Triple P m Q E) (hq : ∀ a s, Q a s → Q' a s) : Triple P m Q' E :=
  h.conseq (fun _ hp => hp) hq fun _ he => he

theorem Triple.pure {a : α} (h : ∀ s, P s → Q a s) : Triple P (pure a : Effect ε σ α) Q E := h

theorem Triple.throw {e : ε} (h : ∀ s, P s → E s) : Triple P (throw e : Effect ε σ α) Q E := h

theorem Triple.get : Triple P (get : Effect ε σ σ) (fun a s => a = s ∧ P s) E :=
  fun _ hs => ⟨rfl, hs⟩

theorem Triple.modify {g : σ → σ} {Q : PUnit → σ → Prop} (h : ∀ s, P s → Q ⟨⟩ (g s)) :
    Triple P (modify g : Effect ε σ PUnit) Q E := h

theorem Triple.ofExcept {x : Except ε α} (hq : ∀ a s, x = .ok a → P s → Q a s)
    (he : ∀ s, P s → E s) : Triple P (ofExcept x : Effect ε σ α) Q E := by
  cases x with
  | ok a => exact fun s hs => hq a s rfl hs
  | error e => exact he

theorem Triple.ofExcept_ok {x : Except ε α} (hx : ∃ a, x = .ok a)
    (hq : ∀ a s, x = .ok a → P s → Q a s) :
    Triple P (MonadExcept.ofExcept x : Effect ε σ α) Q E := by
  obtain ⟨a, rfl⟩ := hx
  exact fun s hs => hq a s rfl hs

theorem Triple.bind (hm : Triple P m Q E) (hf : ∀ a, Triple (Q a) (f a) R E) :
    Triple P (m >>= f) R E := by
  intro s hs
  have h := hm s hs
  rw [exec_bind]
  rcases hx : exec m s with ⟨_ | a, t⟩
  · rw [hx] at h
    exact h
  · rw [hx] at h
    exact hf a t h

theorem Triple.tryCatch {h : ε → Effect ε σ α} (hm : Triple P m Q E)
    (hh : ∀ e, Triple E (h e) Q E') : Triple P (tryCatch m h) Q E' := by
  intro s hs
  have hx' := hm s hs
  rw [exec_tryCatch]
  rcases hx : exec m s with ⟨e | a, t⟩
  · rw [hx] at hx'
    exact hh e t hx'
  · rw [hx] at hx'
    exact hx'

theorem Triple.bind_get {f : σ → Effect ε σ β} (hf : ∀ s, P s → Triple (· = s) (f s) R E) :
    Triple P (MonadState.get >>= f) R E :=
  fun s hs => hf s hs s rfl

theorem Keeps.bind {f : α → Effect ε σ β} (hm : Keeps I m) (hf : ∀ a, Keeps I (f a)) :
    Keeps I (m >>= f) :=
  Triple.bind hm hf

theorem Keeps.pure (a : α) : Keeps I (pure a : Effect ε σ α) := Triple.pure fun _ h => h

theorem Keeps.get : Keeps I (MonadState.get : Effect ε σ σ) := fun _ h => h

theorem Keeps.throw (e : ε) : Keeps I (throw e : Effect ε σ α) := Triple.throw fun _ h => h

theorem Keeps.ofExcept (x : Except ε α) : Keeps I (ofExcept x : Effect ε σ α) :=
  Triple.ofExcept (fun _ _ _ h => h) fun _ h => h

theorem Keeps.modify {g : σ → σ} (h : ∀ s, I s → I (g s)) :
    Keeps I (modify g : Effect ε σ PUnit) :=
  Triple.modify h

theorem Keeps.tryCatch {h : ε → Effect ε σ α} (hm : Keeps I m) (hh : ∀ e, Keeps I (h e)) :
    Keeps I (tryCatch m h) :=
  Triple.tryCatch hm hh

theorem Triple.forM {l : List α} {f : α → Effect ε σ PUnit}
    (h : ∀ a ∈ l, Triple I (f a) (fun _ => I) E) : Triple I (l.forM f) (fun _ => I) E := by
  induction l with
  | nil => exact Triple.pure fun _ h => h
  | cons a l ih =>
    exact Triple.bind (h a List.mem_cons_self) fun _ =>
      ih fun b hb => h b (List.mem_cons_of_mem _ hb)

theorem Triple.mapM {A : β → Prop} {l : List α} {f : α → Effect ε σ β}
    (h : ∀ a ∈ l, Triple I (f a) (fun b s => I s ∧ A b) E) :
    Triple I (l.mapM f) (fun bs s => I s ∧ ∀ b ∈ bs, A b) E := by
  induction l with
  | nil => exact Triple.pure fun _ hs => ⟨hs, nofun⟩
  | cons a l ih =>
    rw [List.forall_mem_cons] at h
    rw [List.mapM_cons]
    refine Triple.bind h.1 fun b s hs => ?_
    refine Triple.bind (ih h.2) (fun bs => Triple.pure fun t ht => ⟨ht.1, ?_⟩) s hs.1
    exact List.forall_mem_cons.mpr ⟨hs.2, ht.2⟩

theorem Triple.foldlM {l : List α} {f : β → α → Effect ε σ β} {g : β → α → β} {b : β}
    (h : ∀ b, ∀ a ∈ l, Triple I (f b a) (fun b' s => I s ∧ b' = g b a) E) :
    Triple I (l.foldlM f b) (fun b' s => I s ∧ b' = l.foldl g b) E := by
  induction l generalizing b with
  | nil => exact Triple.pure fun _ hs => ⟨hs, rfl⟩
  | cons a l ih =>
    rw [List.foldlM_cons, List.foldl_cons]
    refine Triple.bind (h b a List.mem_cons_self) fun b' => ?_
    rintro s ⟨hs, rfl⟩
    exact ih (fun b c hc => h b c (List.mem_cons_of_mem _ hc)) s hs

theorem Triple.forM_of_mem {l : List α} {f : α → Effect ε σ PUnit} {a : α} (ha : a ∈ l)
    (hkeep : ∀ b ∈ l, Triple P (f b) (fun _ => P) E) (hmake : Triple P (f a) (fun _ => I) E)
    (hstay : ∀ b ∈ l, Triple I (f b) (fun _ => I) E) : Triple P (l.forM f) (fun _ => I) E := by
  induction l with
  | nil => cases ha
  | cons b l ih =>
    rw [List.forall_mem_cons] at hkeep hstay
    rcases List.mem_cons.mp ha with rfl | ha
    · exact Triple.bind hmake fun _ => Triple.forM hstay.2
    · exact Triple.bind hkeep.1 fun _ => ih ha hkeep.2 hstay.2

theorem Keeps.forM {l : List α} {f : α → Effect ε σ PUnit} (h : ∀ a ∈ l, Keeps I (f a)) :
    Keeps I (l.forM f) := by
  induction l with
  | nil => exact Keeps.pure _
  | cons a l ih =>
    exact (h a List.mem_cons_self).bind fun _ => ih fun b hb => h b (List.mem_cons_of_mem _ hb)

theorem Triple.and (h : Triple P m Q E) (h' : Triple P' m Q' E') :
    Triple (fun s => P s ∧ P' s) m (fun a s => Q a s ∧ Q' a s) fun s => E s ∧ E' s := by
  intro s hs
  have h := h s hs.1
  have h' := h' s hs.2
  rcases hx : exec m s with ⟨_ | a, t⟩
  · rw [hx] at h h'
    exact ⟨h, h'⟩
  · rw [hx] at h h'
    exact ⟨h, h'⟩

theorem Keeps.and {J : σ → Prop} (hi : Keeps I m) (hj : Keeps J m) :
    Keeps (fun s => I s ∧ J s) m := Triple.and hi hj

/-- The state after the code, whether it returns or raises. -/
def after (m : Effect ε σ α) (s : σ) : σ := (exec m s).2

theorem Triple.after (h : Triple P m (fun _ => E) E) (hs : P s) : E (after m s) := by
  have hm := h s hs
  rw [Effect.after]
  rcases hx : exec m s with ⟨_ | a, t⟩
  · rw [hx] at hm
    exact hm
  · rw [hx] at hm
    exact hm

theorem Triple.returns (h : Triple P m Q fun _ => False) (hs : P s) :
    ∃ a t, exec m s = (.ok a, t) ∧ Q a t := by
  have hm := h s hs
  rcases hx : exec m s with ⟨e | a, t⟩
  · rw [hx] at hm
    exact hm.elim
  · rw [hx] at hm
    exact ⟨a, t, rfl, hm⟩

def Safe (I : σ → Prop) (m : Effect ε σ α) : Prop := Triple I m (fun _ => I) fun _ => False

theorem Safe.keeps (h : Safe I m) : Keeps I m :=
  h.conseq (fun _ h => h) (fun _ _ h => h) fun _ h => h.elim

theorem Safe.bind {f : α → Effect ε σ β} (hm : Safe I m) (hf : ∀ a, Safe I (f a)) :
    Safe I (m >>= f) := Triple.bind hm hf

theorem Safe.pure (a : α) : Safe I (pure a : Effect ε σ α) := Triple.pure fun _ h => h

theorem Safe.get : Safe I (MonadState.get : Effect ε σ σ) := fun _ h => h

theorem Safe.modify {g : σ → σ} (h : ∀ s, I s → I (g s)) :
    Safe I (modify g : Effect ε σ PUnit) := Triple.modify h

theorem Safe.ofExcept {x : Except ε α} (h : ∃ a, x = .ok a) :
    Safe I (ofExcept x : Effect ε σ α) := Triple.ofExcept_ok h fun _ _ _ hs => hs

theorem Safe.bind_ok {x : Except ε α} {f : α → Effect ε σ β} (hx : ∃ a, x = .ok a)
    (hf : ∀ a, x = .ok a → Safe I (f a)) : Safe I (MonadExcept.ofExcept x >>= f) :=
  Triple.bind (P := I) (Q := fun a s => x = .ok a ∧ I s)
    (Triple.ofExcept_ok hx fun _ _ h hs => And.intro h hs) fun a s hs => hf a hs.1 s hs.2

theorem Safe.tryCatch {h : ε → Effect ε σ α} (hm : Keeps I m) (hh : ∀ e, Safe I (h e)) :
    Safe I (tryCatch m h) := Triple.tryCatch hm hh

theorem Safe.forM {l : List α} {f : α → Effect ε σ PUnit} (h : ∀ a ∈ l, Safe I (f a)) :
    Safe I (l.forM f) := Triple.forM h

theorem Safe.and {J : σ → Prop} (hi : Safe I m) (hj : Keeps J m) :
    Safe (fun s => I s ∧ J s) m :=
  (Triple.and hi hj).conseq (fun _ h => h) (fun _ _ h => h) fun _ h => h.1

/-- While `I` holds the code adds at most `w` to a measure, whether it returns or raises. -/
def Adds (I : σ → Prop) (f : σ → ℕ) (w : ℕ) (m : Effect ε σ α) : Prop :=
  ∀ b, Triple (fun s => I s ∧ f s ≤ b) m (fun _ s => I s ∧ f s ≤ b + w) fun s =>
    I s ∧ f s ≤ b + w

section Adds

variable {g : σ → ℕ} {v w : ℕ}

theorem Adds.mono (h : Adds I g v m) (hvw : v ≤ w) : Adds I g w m := fun b =>
  (h b).conseq (fun _ hs => hs)
    (fun _ _ hs => ⟨hs.1, Nat.le_trans hs.2 (Nat.add_le_add_left hvw b)⟩)
    fun _ hs => ⟨hs.1, Nat.le_trans hs.2 (Nat.add_le_add_left hvw b)⟩

theorem Adds.pure (a : α) : Adds I g 0 (pure a : Effect ε σ α) := fun _ =>
  Triple.pure fun _ h => h

theorem Adds.bind {f : α → Effect ε σ β} (hm : Adds I g v m) (hf : ∀ a, Adds I g w (f a)) :
    Adds I g (v + w) (m >>= f) := by
  intro b
  refine Triple.bind (Q := fun _ s => I s ∧ g s ≤ b + v) ?_ fun a => ?_
  · exact (hm b).conseq (fun _ h => h) (fun _ _ h => h) fun _ h =>
      ⟨h.1, Nat.le_trans h.2 (Nat.add_le_add_left (Nat.le_add_right v w) b)⟩
  · rw [← Nat.add_assoc]
    exact hf a (b + v)

theorem Adds.forM {l : List α} {f : α → Effect ε σ PUnit} {w : α → ℕ}
    (h : ∀ a ∈ l, Adds I g (w a) (f a)) : Adds I g (l.map w).sum (l.forM f) := by
  induction l with
  | nil => exact Adds.pure _
  | cons a l ih =>
    rw [List.forall_mem_cons] at h
    rw [List.map_cons, List.sum_cons]
    exact h.1.bind fun _ => ih h.2

theorem Adds.after (h : Adds I g w m) (hs : I s) :
    I (Effect.after m s) ∧ g (Effect.after m s) ≤ g s + w :=
  Triple.after (h (g s)) ⟨hs, Nat.le_refl _⟩

end Adds

end Effect
