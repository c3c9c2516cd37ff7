import Mathlib.Tactic.Common

/-! Computations that may stop early and leave a list of events behind. -/

namespace Effects

structure Traced (ω α : Type) where
  events : List ω
  result : Option α

namespace Traced

variable {ω α β : Type}

instance : Monad (Traced ω) where
  pure a := ⟨[], some a⟩
  bind m f :=
    match m.result with
    | none => ⟨m.events, none⟩
    | some a => ⟨m.events ++ (f a).events, (f a).result⟩

def emit (e : ω) : Traced ω Unit := ⟨[e], some ()⟩

def require (p : Prop) [Decidable p] : Traced ω Unit := ⟨[], if p then some () else none⟩

def ofOption (a : Option α) : Traced ω α := ⟨[], a⟩

@[simp] theorem result_pure (a : α) : (pure a : Traced ω α).result = some a := rfl

@[simp] theorem result_bind (m : Traced ω α) (f : α → Traced ω β) :
    (m >>= f).result = m.result.bind fun a => (f a).result := by
  change (match m.result with
    | none => (⟨m.events, none⟩ : Traced ω β)
    | some a => ⟨m.events ++ (f a).events, (f a).result⟩).result = _
  cases m.result <;> rfl

@[simp] theorem result_ofOption (a : Option α) : (ofOption a : Traced ω α).result = a := rfl

@[simp] theorem result_require (p : Prop) [Decidable p] :
    (require p : Traced ω Unit).result = if p then some () else none := rfl

theorem mem_events_bind {m : Traced ω α} {f : α → Traced ω β} {e : ω} :
    e ∈ (m >>= f).events ↔ e ∈ m.events ∨ ∃ a, m.result = some a ∧ e ∈ (f a).events := by
  change e ∈ (match m.result with
    | none => (⟨m.events, none⟩ : Traced ω β)
    | some a => ⟨m.events ++ (f a).events, (f a).result⟩).events ↔ _
  cases m.result <;> simp

def Within (ok : ω → Prop) (m : Traced ω α) (post : α → Prop) : Prop :=
  (∀ e ∈ m.events, ok e) ∧ ∀ a, m.result = some a → post a

variable {ok : ω → Prop} {m : Traced ω α} {f : α → Traced ω β} {post mid : α → Prop} {post' : β → Prop}

theorem within_pure {a : α} (h : post a) : Within ok (pure a) post := by
  refine ⟨List.forall_mem_nil _, ?_⟩
  rintro b ⟨⟩
  exact h

theorem within_emit {e : ω} (h : ok e) : Within ok (emit e) fun _ => True :=
  ⟨List.forall_mem_singleton.mpr h, fun _ _ => trivial⟩

theorem within_ofOption {a : Option α} : Within ok (ofOption a) fun b => a = some b :=
  ⟨List.forall_mem_nil _, fun _ h => h⟩

theorem within_require (p : Prop) [Decidable p] : Within ok (require p) fun _ => p := by
  refine ⟨List.forall_mem_nil _, fun u hu => ?_⟩
  change (if p then some () else none) = some u at hu
  by_contra h
  simp [h] at hu

theorem within_ite {p : Prop} [Decidable p] {m' : Traced ω α} (h : p → Within ok m post)
    (h' : ¬ p → Within ok m' post) : Within ok (if p then m else m') post := by
  split_ifs with hp
  · exact h hp
  · exact h' hp

theorem Within.bind (h : Within ok m mid) (hf : ∀ a, mid a → Within ok (f a) post') :
    Within ok (m >>= f) post' := by
  constructor
  · intro e he
    obtain he | ⟨a, ha, he⟩ := mem_events_bind.mp he
    · exact h.1 e he
    · exact (hf a (h.2 a ha)).1 e he
  · intro b hb
    rw [result_bind] at hb
    obtain ⟨a, ha, hb⟩ := Option.bind_eq_some_iff.mp hb
    exact (hf a (h.2 a ha)).2 b hb

theorem Within.mono (h : Within ok m mid) (hpost : ∀ a, mid a → post a) : Within ok m post :=
  ⟨h.1, fun a ha => hpost a (h.2 a ha)⟩

theorem within_forM {g : α → Traced ω Unit} {l : List α} {P : α → Prop}
    (h : ∀ x ∈ l, Within ok (g x) fun _ => P x) : Within ok (forM l g) fun _ => ∀ x ∈ l, P x := by
  induction l with
  | nil => exact within_pure (List.forall_mem_nil _)
  | cons x l ih =>
    rw [List.forM_cons]
    obtain ⟨hx, hl⟩ := List.forall_mem_cons.mp h
    apply hx.bind
    intro _ hPx
    exact (ih hl).mono fun _ hP => List.forall_mem_cons.mpr ⟨hPx, hP⟩

theorem within_mapM {g : α → Traced ω β} {l : List α} {P : α → β → Prop}
    (h : ∀ x ∈ l, Within ok (g x) (P x)) : Within ok (l.mapM' g) fun ys => List.Forall₂ P l ys := by
  induction l with
  | nil => exact within_pure .nil
  | cons x l ih =>
    rw [List.mapM'_cons]
    obtain ⟨hx, hl⟩ := List.forall_mem_cons.mp h
    apply hx.bind
    intro y hy
    apply (ih hl).bind
    intro ys hys
    exact within_pure (.cons hy hys)

end Traced

end Effects
