import Mathlib.Data.List.Forall2
import PipelineScripts.Script.Expansion

/-!
# Results that may be errors

What follows from a computation that ends well: every step of it ended well.
-/
namespace PipelineScripts

section Steps

variable {ε α β : Type}

/-- One of two results, and the first only where a condition holds. -/
theorem of_ite_eq {p : Prop} [Decidable p] {a b x : α} (h : (if p then a else b) = x) :
    p ∧ a = x ∨ b = x := by
  split_ifs at h with hp
  · exact .inl ⟨hp, h⟩
  · exact .inr h

/-- A check that was passed. -/
theorem of_guard_eq_some {p : Prop} [Decidable p] {f : Unit → Option α} {a : α}
    (h : (if p then (none : Option Unit) >>= f else f ()) = some a) : ¬ p ∧ f () = some a := by
  split_ifs at h with hp
  · cases h
  · exact ⟨hp, h⟩

theorem bind_eq_ok {x : Except ε α} {f : α → Except ε β} {b : β} :
    x >>= f = .ok b ↔ ∃ a, x = .ok a ∧ f a = .ok b := by
  cases x with
  | error e => simp [bind, Except.bind]
  | ok a => simp [bind, Except.bind]

theorem map_eq_ok {x : Except ε α} {f : α → β} {b : β} :
    x.map f = .ok b ↔ ∃ a, x = .ok a ∧ f a = b := by
  cases x with
  | error e => simp [Except.map]
  | ok a => simp [Except.map]

theorem map_eq_error {x : Except ε α} {f : α → β} {e : ε} : x.map f = .error e ↔ x = .error e := by
  cases x with
  | error e => simp [Except.map]
  | ok a => simp [Except.map]

theorem mapError_eq_ok {ε' : Type} {x : Except ε α} {f : ε → ε'} {a : α} :
    x.mapError f = .ok a ↔ x = .ok a := by
  cases x with
  | error e => simp [Except.mapError]
  | ok a => simp [Except.mapError]

theorem toOption_eq_some {x : Except ε α} {a : α} : x.toOption = some a ↔ x = .ok a := by
  cases x with
  | error e => simp [Except.toOption]
  | ok a => simp [Except.toOption]

/-- A computation over a list ends well if it does so at every item. -/
theorem mapM_eq_ok {f : α → Except ε β} {l : List α} {out : List β} :
    l.mapM f = .ok out ↔ List.Forall₂ (fun a b => f a = .ok b) l out := by
  induction l generalizing out with
  | nil => simp [pure, Except.pure, eq_comm]
  | cons a rest ih =>
    simp only [List.mapM_cons, bind_eq_ok, List.forall₂_cons_left_iff, pure, Except.pure,
      Except.ok.injEq, ih]
    constructor
    · rintro ⟨b, hb, more, hmore, rfl⟩
      exact ⟨b, more, hb, hmore, rfl⟩
    · rintro ⟨b, more, hb, hmore, rfl⟩
      exact ⟨b, hb, more, hmore, rfl⟩

theorem exists_left_of_mem {R : α → β → Prop} {l : List α} {out : List β}
    (h : List.Forall₂ R l out) {b : β} (hb : b ∈ out) : ∃ a ∈ l, R a b := by
  induction h with
  | nil => simp at hb
  | @cons a c rest more ha _ ih =>
    rcases List.mem_cons.mp hb with rfl | hb
    · exact ⟨a, by simp, ha⟩
    · obtain ⟨a', ha', h'⟩ := ih hb
      exact ⟨a', List.mem_cons_of_mem a ha', h'⟩

theorem exists_right_of_mem {R : α → β → Prop} {l : List α} {out : List β}
    (h : List.Forall₂ R l out) {a : α} (ha : a ∈ l) : ∃ b ∈ out, R a b :=
  exists_left_of_mem (R := flip R) (List.Forall₂.flip h) ha

/-- Each result of a computation over a list is that of some item. -/
theorem exists_of_mem_mapM {f : α → Except ε β} {l : List α} {out : List β}
    (h : l.mapM f = .ok out) {b : β} (hb : b ∈ out) : ∃ a ∈ l, f a = .ok b :=
  exists_left_of_mem (mapM_eq_ok.mp h) hb

/-- The same for a computation that may have no result. -/
theorem exists_of_mem_mapM_option {f : α → Option β} {l : List α} {out : List β}
    (h : l.mapM f = some out) {b : β} (hb : b ∈ out) : ∃ a ∈ l, f a = some b := by
  induction l generalizing out with
  | nil =>
    cases h
    cases hb
  | cons a rest ih =>
    rw [List.mapM_cons] at h
    obtain ⟨first, hfirst, h⟩ := Option.bind_eq_some_iff.mp h
    obtain ⟨more, hmore, h⟩ := Option.bind_eq_some_iff.mp h
    cases h
    rcases List.mem_cons.mp hb with rfl | hb
    · exact ⟨a, List.mem_cons_self, hfirst⟩
    · obtain ⟨a', ha', h'⟩ := ih hmore hb
      exact ⟨a', List.mem_cons_of_mem a ha', h'⟩

theorem lookup_cons_eq_ite [BEq α] [LawfulBEq α] [DecidableEq α] (key k : α) (value : β)
    (rest : List (α × β)) :
    ((key, value) :: rest).lookup k = if k = key then some value else rest.lookup k := by
  by_cases hk : k = key
  · simp [hk]
  · rw [List.lookup_cons, beq_false_of_ne hk, if_neg hk]

theorem mem_of_lookup [BEq α] [LawfulBEq α] {l : List (α × β)} {key : α} {value : β}
    (h : l.lookup key = some value) : (key, value) ∈ l := by
  obtain ⟨before, after, rfl, -⟩ := List.lookup_eq_some_iff.mp h
  simp

/-- What stands under a key is found if the keys differ. -/
theorem lookup_of_mem [BEq α] [LawfulBEq α] [DecidableEq α] {l : List (α × β)} {key : α} {value : β}
    (hkeys : (l.map Prod.fst).Nodup) (h : (key, value) ∈ l) : l.lookup key = some value := by
  induction l with
  | nil => simp at h
  | cons e rest ih =>
    obtain ⟨k, v⟩ := e
    obtain ⟨hfresh, hrest⟩ := List.nodup_cons.mp hkeys
    rw [lookup_cons_eq_ite]
    rcases List.mem_cons.mp h with heq | hmem
    · cases heq
      rw [if_pos rfl]
    · have hne : key ≠ k := by
        rintro rfl
        exact hfresh (List.mem_map.mpr ⟨(key, value), hmem, rfl⟩)
      rw [if_neg hne, ih hrest hmem]

/-- What every step of a fold keeps, the whole fold keeps. -/
theorem foldlM_induct {f : β → α → Except ε β} (P : β → Prop) {l : List α} {b out : β}
    (hb : P b) (hstep : ∀ b a, a ∈ l → P b → ∀ b', f b a = .ok b' → P b')
    (h : l.foldlM f b = .ok out) : P out := by
  induction l generalizing b with
  | nil =>
    cases h
    exact hb
  | cons a rest ih =>
    rw [List.foldlM_cons] at h
    obtain ⟨b', hb', h⟩ := bind_eq_ok.mp h
    refine ih (hstep b a (by simp) hb b' hb') ?_ h
    exact fun b a ha => hstep b a (List.mem_cons_of_mem _ ha)

end Steps

namespace Script

variable {α ε β : Type} {f : α → Except ε (List β)}

@[simp] theorem concatResults_nil : concatResults f [] = .ok [] := rfl

theorem concatResults_cons (a : α) (rest : List α) : concatResults f (a :: rest) =
    match f a with
    | .error e => .error e
    | .ok bs =>
      match concatResults f rest with
      | .error e => .error e
      | .ok more => .ok (bs ++ more) := rfl

theorem concatResults_eq_ok {l : List α} {out : List β} :
    concatResults f l = .ok out ↔
      ∃ parts, List.Forall₂ (fun a part => f a = .ok part) l parts ∧ out = parts.flatten := by
  induction l generalizing out with
  | nil => simp [eq_comm]
  | cons a rest ih =>
    simp only [concatResults_cons, List.forall₂_cons_left_iff]
    constructor
    · intro h
      cases ha : f a with
      | error e => simp [ha] at h
      | ok part =>
        cases hr : concatResults f rest with
        | error e => simp [ha, hr] at h
        | ok more =>
          obtain ⟨parts, hparts, rfl⟩ := ih.mp hr
          refine ⟨part :: parts, ⟨part, parts, rfl, hparts, rfl⟩, ?_⟩
          simpa [ha, hr] using h.symm
    · rintro ⟨_, ⟨part, parts, ha, hparts, rfl⟩, rfl⟩
      simp [ha, ih.mpr ⟨parts, hparts, rfl⟩]

theorem exists_of_mem_concatResults {l : List α} {out : List β} (h : concatResults f l = .ok out)
    {x : β} (hx : x ∈ out) : ∃ a ∈ l, ∃ part, f a = .ok part ∧ x ∈ part := by
  obtain ⟨parts, hparts, rfl⟩ := concatResults_eq_ok.mp h
  obtain ⟨part, hpart, hx⟩ := List.mem_flatten.mp hx
  obtain ⟨a, ha, hresult⟩ := exists_left_of_mem hparts hpart
  exact ⟨a, ha, part, hresult, hx⟩

/-- Each item has a result, and that is part of the whole. -/
theorem exists_part_of_mem {l : List α} {out : List β} (h : concatResults f l = .ok out) {a : α}
    (ha : a ∈ l) : ∃ part, f a = .ok part ∧ part ⊆ out := by
  obtain ⟨parts, hparts, rfl⟩ := concatResults_eq_ok.mp h
  obtain ⟨part, hpart, hresult⟩ := exists_right_of_mem hparts ha
  exact ⟨part, hresult, fun x hx => List.mem_flatten.mpr ⟨part, hpart, hx⟩⟩

/-- What is in order for every item is so for the whole. -/
theorem map_sublist_concatResults {γ : Type} {g : α → List γ} {key : β → γ} {l : List α}
    {out : List β} (h : ∀ a ∈ l, ∀ part, f a = .ok part → (part.map key).Sublist (g a))
    (hout : concatResults f l = .ok out) : (out.map key).Sublist (l.flatMap g) := by
  obtain ⟨parts, hparts, rfl⟩ := concatResults_eq_ok.mp hout
  clear hout
  induction hparts with
  | nil => exact List.Sublist.refl _
  | @cons a part rest parts ha _ ih =>
    rw [List.flatten_cons, List.map_append, List.flatMap_cons]
    exact (h a (by simp) part ha).append (ih fun x hx => h x (List.mem_cons_of_mem a hx))

@[simp] theorem concatResults_singleton (a : α) : concatResults f [a] = f a := by
  cases h : f a <;> simp [concatResults_cons, h]

theorem concatResults_append (l l' : List α) : concatResults f (l ++ l') =
    concatResults f l >>= fun out => (concatResults f l').map (out ++ ·) := by
  induction l with
  | nil =>
    rw [List.nil_append]
    cases concatResults f l' <;> rfl
  | cons a rest ih =>
    rw [List.cons_append, concatResults_cons, ih, concatResults_cons]
    cases f a with
    | error e => rfl
    | ok part =>
      cases concatResults f rest with
      | error e => rfl
      | ok more => cases concatResults f l' <;> simp [bind, Except.bind, Except.map]

/-- Results may be put together group by group. -/
theorem concatResults_flatMap {γ : Type} (g : γ → List α) (l : List γ) :
    concatResults f (l.flatMap g) = concatResults (fun c => concatResults f (g c)) l := by
  induction l with
  | nil => rfl
  | cons c rest ih =>
    rw [List.flatMap_cons, concatResults_append, ih, concatResults_cons]
    cases concatResults f (g c) with
    | error e => rfl
    | ok part => cases concatResults (fun c => concatResults f (g c)) rest <;> rfl

theorem concatResults_congr {g : α → Except ε (List β)} {l : List α} (h : ∀ a ∈ l, f a = g a) :
    concatResults f l = concatResults g l := by
  induction l with
  | nil => rfl
  | cons a rest ih =>
    rw [concatResults_cons, concatResults_cons, h a (by simp),
      ih fun x hx => h x (List.mem_cons_of_mem a hx)]

/-- An error is that of some item. -/
theorem exists_of_concatResults_eq_error {l : List α} {e : ε} (h : concatResults f l = .error e) :
    ∃ a ∈ l, f a = .error e := by
  induction l with
  | nil => cases h
  | cons a rest ih =>
    rw [concatResults_cons] at h
    split at h
    next ha =>
      cases h
      exact ⟨a, by simp, ha⟩
    next =>
      split at h
      next hrest =>
        cases h
        obtain ⟨x, hx, hresult⟩ := ih hrest
        exact ⟨x, List.mem_cons_of_mem a hx, hresult⟩
      next => cases h

theorem concatResults_eq_flatMap {l : List α} {g : α → List β} (h : ∀ a ∈ l, f a = .ok (g a)) :
    concatResults f l = .ok (l.flatMap g) := by
  induction l with
  | nil => rfl
  | cons a rest ih =>
    have hrest := ih fun x hx => h x (List.mem_cons_of_mem a hx)
    rw [concatResults_cons, h a (by simp), hrest, List.flatMap_cons]

/-- What is done alike to every item and to its result is done to the whole. -/
theorem concatResults_map {α' β' : Type} {g : α' → Except ε (List β')} {item : α → α'}
    {result : β → β'} {l : List α} {out : List β}
    (h : ∀ a ∈ l, ∀ part, f a = .ok part → g (item a) = .ok (part.map result))
    (hout : concatResults f l = .ok out) :
    concatResults g (l.map item) = .ok (out.map result) := by
  obtain ⟨parts, hparts, rfl⟩ := concatResults_eq_ok.mp hout
  refine concatResults_eq_ok.mpr ⟨parts.map (List.map result), ?_, by rw [List.map_flatten]⟩
  clear hout
  induction hparts with
  | nil => exact .nil
  | @cons a part rest parts ha _ ih =>
    refine .cons (h a (by simp) part ha) ?_
    exact ih fun x hx => h x (List.mem_cons_of_mem a hx)

/-- The same for errors, too. -/
theorem concatResults_map_of_map {α' β' : Type} {g : α' → Except ε (List β')} {item : α → α'}
    {result : β → β'} {l : List α} (h : ∀ a ∈ l, g (item a) = (f a).map (List.map result)) :
    concatResults g (l.map item) = (concatResults f l).map (List.map result) := by
  induction l with
  | nil => rfl
  | cons a rest ih =>
    rw [List.map_cons, concatResults_cons, concatResults_cons, h a (by simp),
      ih fun x hx => h x (List.mem_cons_of_mem a hx)]
    cases f a with
    | error e => rfl
    | ok part => cases concatResults f rest <;> simp [Except.map]

theorem concatResults_map_right {β' : Type} {g : α → Except ε (List β')} {result : β → β'}
    {l : List α} {out : List β}
    (h : ∀ a ∈ l, ∀ part, f a = .ok part → g a = .ok (part.map result))
    (hout : concatResults f l = .ok out) : concatResults g l = .ok (out.map result) := by
  rw [← List.map_id l]
  exact concatResults_map h hout

end Script

end PipelineScripts
