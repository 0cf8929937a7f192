import PipelineScripts.Proofs.MetNodes

/-!
# Names as they are written

Each node of a stream with the name its anchor or alias is written with. An alias is given the
number of the last anchor of its name that was set before it.
-/
namespace PipelineScripts.Yaml

/-- The last of a list that has a property. -/
def LastWith {α : Type} (p : α → Prop) (l : List α) (a : α) : Prop :=
  ∃ before after, l = before ++ a :: after ∧ p a ∧ ∀ b ∈ after, ¬ p b

theorem lastWith_iff_find?_reverse {α : Type} {p : α → Bool} {l : List α} {a : α} :
    LastWith (p · = true) l a ↔ l.reverse.find? p = some a := by
  rw [List.find?_eq_some_iff_append, LastWith]
  constructor
  · rintro ⟨before, after, rfl, ha, hafter⟩
    refine ⟨ha, after.reverse, before.reverse, by simp, fun b hb => ?_⟩
    simpa using hafter b (List.mem_reverse.mp hb)
  · rintro ⟨ha, after, before, hl, hafter⟩
    refine ⟨before.reverse, after.reverse, ?_, ha, fun b hb => ?_⟩
    · rw [← List.reverse_reverse l, hl]
      simp
    · simpa using hafter b (List.mem_reverse.mp hb)

theorem LastWith.mem {α : Type} {p : α → Prop} {l : List α} {a : α} (h : LastWith p l a) :
    a ∈ l := by
  obtain ⟨before, after, rfl, -⟩ := h
  simp

theorem LastWith.unique {α : Type} {p : α → Prop} {l : List α} {a b : α} (ha : LastWith p l a)
    (hb : LastWith p l b) : a = b := by
  classical
  have hiff : ∀ c, LastWith p l c ↔ l.reverse.find? (fun a => decide (p a)) = some c := fun c => by
    rw [← lastWith_iff_find?_reverse]
    simp only [decide_eq_true_eq]
  exact Option.some.inj (((hiff a).mp ha).symm.trans ((hiff b).mp hb))

theorem lastWith_map {α β : Type} {g : α → β} {p : β → Prop} {l : List α} {b : β} :
    LastWith p (l.map g) b ↔ ∃ a, g a = b ∧ LastWith (fun a => p (g a)) l a := by
  constructor
  · rintro ⟨before, after, heq, hb, hafter⟩
    obtain ⟨front, back, rfl, rfl, hback⟩ := List.map_eq_append_iff.mp heq
    obtain ⟨a, rest, rfl, rfl, rfl⟩ := List.map_eq_cons_iff.mp hback
    exact ⟨a, rfl, front, rest, rfl, hb, fun c hc => hafter (g c) (List.mem_map_of_mem hc)⟩
  · rintro ⟨a, rfl, before, after, rfl, ha, hafter⟩
    refine ⟨before.map g, after.map g, by simp, ha, fun c hc => ?_⟩
    obtain ⟨d, hd, rfl⟩ := List.mem_map.mp hc
    exact hafter d hd

theorem LastWith.congr {α : Type} {p q : α → Prop} {l : List α} {a : α} (h : LastWith p l a)
    (hpq : ∀ b ∈ l, p b ↔ q b) : LastWith q l a := by
  obtain ⟨before, after, rfl, ha, hafter⟩ := h
  exact ⟨before, after, rfl, (hpq a (by simp)).mp ha, fun b hb => by
    rw [← hpq b (by simp [hb])]
    exact hafter b hb⟩

theorem lastWith_concat {α : Type} {p : α → Prop} {l : List α} {a b : α} :
    LastWith p (l ++ [a]) b ↔ (p a ∧ b = a) ∨ (¬ p a ∧ LastWith p l b) := by
  constructor
  · rintro ⟨before, after, heq, hb, hafter⟩
    rcases List.eq_nil_or_concat' after with rfl | ⟨after, last, rfl⟩
    · obtain ⟨rfl, hlast⟩ := List.append_inj' heq rfl
      obtain rfl : a = b := by simpa using hlast
      exact .inl ⟨hb, rfl⟩
    · have heq' : l ++ [a] = (before ++ b :: after) ++ [last] := by simpa using heq
      obtain ⟨rfl, hlast⟩ := List.append_inj' heq' rfl
      obtain rfl : a = last := by simpa using hlast
      refine .inr ⟨hafter a (by simp), before, after, rfl, hb, fun c hc => ?_⟩
      exact hafter c (List.mem_append_left _ hc)
  · rintro (⟨ha, rfl⟩ | ⟨ha, before, after, rfl, hb, hafter⟩)
    · exact ⟨l, [], rfl, ha, by simp⟩
    · refine ⟨before, after ++ [a], by simp, hb, fun c hc => ?_⟩
      rcases List.mem_append.mp hc with hc | hc
      · exact hafter c hc
      · rwa [List.mem_singleton.mp hc]

theorem exists_lastWith {α : Type} {p : α → Prop} {l : List α} :
    (∃ a, LastWith p l a) ↔ ∃ a ∈ l, p a := by
  constructor
  · rintro ⟨a, ha⟩
    obtain ⟨-, -, -, hp, -⟩ := id ha
    exact ⟨a, ha.mem, hp⟩
  · induction l using List.reverseRecOn with
    | nil => simp
    | append_singleton l last ih =>
      rintro ⟨a, ha, hp⟩
      by_cases hlast : p last
      · exact ⟨last, lastWith_concat.mpr (.inl ⟨hlast, rfl⟩)⟩
      · have hmem : a ∈ l := by
          rcases List.mem_append.mp ha with ha | ha
          · exact ha
          · exact absurd (List.mem_singleton.mp ha ▸ hp) hlast
        obtain ⟨b, hb⟩ := ih ⟨a, hmem, hp⟩
        exact ⟨b, lastWith_concat.mpr (.inr ⟨hlast, hb⟩)⟩

/-- Of what is read off a list, the last is read off the last that gives something. -/
theorem LastWith.getLast?_filterMap {α β : Type} {p : α → Prop} {l : List α} {a : α}
    (h : LastWith p l a) {g : α → Option β} {b : β} (hsome : g a = some b)
    (hnone : ∀ c, ¬ p c → g c = none) : (l.filterMap g).getLast? = some b := by
  obtain ⟨before, after, rfl, -, hafter⟩ := h
  have hnil : after.filterMap g = [] :=
    List.filterMap_eq_nil_iff.mpr fun c hc => hnone c (hafter c hc)
  rw [List.filterMap_append, List.filterMap_cons_some hsome, hnil, List.getLast?_concat]

/-- A node of a stream with the name that is written for its anchor or alias. -/
structure NamedEvent where
  event : Event
  name : List Char

/-- Nodes with anchors, latest first. They are numbered from one. -/
inductive Numbered : List NamedEvent → Prop
  | nil : Numbered []
  | cons {x : NamedEvent} {known : List NamedEvent}
      (hx : x.event.kind.anchor = known.length + 1) (h : Numbered known) : Numbered (x :: known)

namespace EventReader

/-- The number of an alias is that of the last anchor of its name. -/
theorem exists_find?_of_anchorNumber? {r : EventReader} {known : List NamedEvent}
    (hknown : Numbered known) (hnames : known.map NamedEvent.name = r.anchors) {name : List Char}
    {number : Nat} (h : r.anchorNumber? name = some number) :
    ∃ x, known.find? (fun x => x.name == name) = some x ∧ x.event.kind.anchor = number := by
  rw [anchorNumber?, ← hnames, List.length_map] at h
  clear hnames
  induction hknown generalizing number with
  | nil => cases h
  | @cons x known hx _ ih =>
    rw [List.map_cons, List.findIdx?_cons] at h
    rw [List.find?_cons]
    split_ifs at h with hname
    · rw [hname]
      cases h
      exact ⟨x, rfl, hx⟩
    · rw [Bool.not_eq_true] at hname
      rw [hname]
      refine ih ?_
      cases hidx : (known.map NamedEvent.name).findIdx? (· == name) with
      | none =>
        rw [hidx] at h
        cases h
      | some i =>
        rw [hidx] at h
        cases h
        simp

/-- The nodes of a stream with their names, which are those of tokens. -/
structure Names (tokens : List Token) (events : List Event) (named : List NamedEvent) : Prop where
  event : named.map NamedEvent.event = nodeEvents events
  anchor : ∀ x ∈ named, x.event.kind.anchor ≠ 0 → ∃ t ∈ tokens, t.kind = .anchor x.name
  aliasOf : ∀ x ∈ named, ∀ number, x.event.kind = .aliasOf number →
    ∃ t ∈ tokens, t.kind = .aliasOf x.name ∧ t.span = x.event.span

namespace Names

variable {tokens tokens' : List Token} {events : List Event} {named : List NamedEvent}

/-- An event that starts no node has no name. -/
theorem mark (h : Names tokens events named) {e : Event} (hnode : e.kind.isNode = false) :
    Names tokens (e :: events) named where
  event := by rw [h.event, nodeEvents, nodeEvents, List.filter_cons_of_neg (by simp [hnode])]
  anchor := h.anchor
  aliasOf := h.aliasOf

/-- One more node in front. -/
theorem cons {x : NamedEvent} (h : Names tokens events named) (hnode : x.event.kind.isNode = true)
    (hanchor : x.event.kind.anchor ≠ 0 → ∃ t ∈ tokens, t.kind = .anchor x.name)
    (halias : ∀ number, x.event.kind = .aliasOf number →
      ∃ t ∈ tokens, t.kind = .aliasOf x.name ∧ t.span = x.event.span) :
    Names tokens (x.event :: events) (x :: named) where
  event := by
    rw [List.map_cons, h.event]
    simp [nodeEvents, hnode]
  anchor := List.forall_mem_cons.mpr ⟨hanchor, h.anchor⟩
  aliasOf := List.forall_mem_cons.mpr ⟨halias, h.aliasOf⟩

theorem of_subset (h : Names tokens events named) (htokens : ∀ t ∈ tokens, t ∈ tokens') :
    Names tokens' events named where
  event := h.event
  anchor := fun x hx hanchor =>
    let ⟨t, ht, hkind⟩ := h.anchor x hx hanchor
    ⟨t, htokens t ht, hkind⟩
  aliasOf := fun x hx number hnumber =>
    let ⟨t, ht, hkind⟩ := h.aliasOf x hx number hnumber
    ⟨t, htokens t ht, hkind⟩

end Names

end EventReader

/-! ### The resolution of a stream -/

/-- Every alias has the number of the last anchor of its name, if some are known from before. -/
def ResolvedAfter (known named : List NamedEvent) : Prop :=
  ∀ before x after number, named = before ++ x :: after → x.event.kind = .aliasOf number →
    ∃ y, y.event.kind.anchor = number ∧
      ((before.filter (·.event.kind.anchor != 0)).reverse ++ known).find? (·.name == x.name) =
        some y

/-- One more node in front. An anchor of its own is known to those behind it. -/
theorem ResolvedAfter.cons {known known' named : List NamedEvent} {x : NamedEvent}
    (h : ResolvedAfter known' named)
    (hknown : known' = if x.event.kind.anchor = 0 then known else x :: known)
    (halias : ∀ number, x.event.kind = .aliasOf number →
      ∃ y, y.event.kind.anchor = number ∧ known.find? (·.name == x.name) = some y) :
    ResolvedAfter known (x :: named) := by
  intro before y after number heq hnumber
  cases before with
  | nil =>
    cases heq
    exact halias number hnumber
  | cons z before =>
    obtain ⟨rfl, hrest⟩ := List.cons.inj heq
    obtain ⟨d, hd, hfind⟩ := h before y after number hrest hnumber
    refine ⟨d, hd, ?_⟩
    rw [← hfind, hknown, List.filter_cons]
    by_cases hzero : x.event.kind.anchor = 0
    · simp [hzero]
    · simp [hzero]

/-- Every alias has the number of the last anchor of its name that is set before it. -/
def Resolved (named : List NamedEvent) : Prop :=
  ∀ before x after number, named = before ++ x :: after → x.event.kind = .aliasOf number →
    ∃ y, y.event.kind.anchor = number ∧
      LastWith (fun z => z.event.kind.anchor ≠ 0 ∧ z.name = x.name) before y

theorem ResolvedAfter.resolved {named : List NamedEvent} (h : ResolvedAfter [] named) :
    Resolved named := by
  intro before x after number heq hnumber
  obtain ⟨y, hy, hfind⟩ := h before x after number heq hnumber
  refine ⟨y, hy, ?_⟩
  rw [List.append_nil, ← List.filter_reverse, List.find?_filter] at hfind
  simpa using lastWith_iff_find?_reverse.mpr hfind

namespace EventReader

/-- A run names its nodes and resolves its aliases. The induction is on the run; the anchors of the
reader are the names of the nodes that are known. -/
theorem Runs.exists_names {r : EventReader} {events : List Event} (h : r.Runs events)
    {known : List NamedEvent} (hknown : Numbered known)
    (hnames : known.map NamedEvent.name = r.anchors) :
    ∃ named, Names r.tokens events named ∧ ResolvedAfter known named := by
  induction h generalizing known with
  | @last r r' e hstep hend =>
    refine ⟨[], ⟨?_, by simp, by simp⟩, by simp [ResolvedAfter]⟩
    rw [nodeEvents, List.filter_cons, hend]
    rfl
  | @next r r' e events hstep hend hrest ih =>
    have hyields := yields_step hstep
    have hsubset : ∀ t ∈ r'.tokens, t ∈ r.tokens := fun t ht => hyields.suffix.subset ht
    cases hyields with
    | @aliasOf t name number _ ht hkind hnumber hpasses =>
      obtain ⟨named, hnamed, hresolved⟩ := ih hknown (hnames.trans hpasses.2.symm)
      obtain ⟨y, hfind, hy⟩ := exists_find?_of_anchorNumber? hknown hnames hnumber
      let x : NamedEvent := ⟨⟨.aliasOf number, t.span⟩, name⟩
      refine ⟨x :: named, (hnamed.of_subset hsubset).cons (x := x) rfl (absurd rfl) fun n hn => ?_,
        hresolved.cons (if_pos rfl).symm fun n hn => ?_⟩
      · exact ⟨t, ht, hkind, rfl⟩
      · cases hn
        exact ⟨y, hy, hfind⟩
    | @node _ p _ hp hdefines hformed htokens =>
      have hanchorOf := EventKind.anchor_of_properties? hp
      have hnode := EventKind.isNode_of_properties? hp
      have halias : ∀ n, e.kind ≠ .aliasOf n := by
        intro n hn
        rw [hn] at hp
        cases hp
      cases hdefines with
      | none hzero hanchors =>
        obtain ⟨named, hnamed, hresolved⟩ := ih hknown (hnames.trans hanchors.symm)
        rw [← hanchorOf] at hzero
        exact ⟨_, (hnamed.of_subset hsubset).cons (x := ⟨e, []⟩) hnode (absurd hzero)
          (fun n hn => absurd hn (halias n)),
          hresolved.cons (if_pos hzero).symm fun n hn => absurd hn (halias n)⟩
      | @anchor t name ht hkind hnumber hanchors =>
        have hlength : known.length = r.anchors.length := by rw [← hnames, List.length_map]
        have hpos : e.kind.anchor ≠ 0 := by
          rw [hanchorOf, hnumber]
          exact Nat.succ_ne_zero _
        have hmore : Numbered (⟨e, name⟩ :: known) :=
          .cons (by rw [hanchorOf, hnumber, hlength]) hknown
        obtain ⟨named, hnamed, hresolved⟩ := ih hmore (by rw [List.map_cons, hnames, hanchors])
        exact ⟨_, (hnamed.of_subset hsubset).cons (x := ⟨e, name⟩) hnode
          (fun _ => ⟨t, ht, hkind⟩) (fun n hn => absurd hn (halias n)),
          hresolved.cons (if_neg hpos).symm fun n hn => absurd hn (halias n)⟩
    | mark hp halias hpasses =>
      obtain ⟨named, hnamed, hresolved⟩ := ih hknown (hnames.trans hpasses.2.symm)
      exact ⟨named, (hnamed.of_subset hsubset).mark (EventKind.isNode_eq_false hp halias),
        hresolved⟩

/-- Anchors are numbered in the order of the stream. -/
theorem Runs.anchors_eq_range' {r : EventReader} {events : List Event} (h : r.Runs events) :
    ∃ n, (events.map (·.kind.anchor)).filter (· != 0) = List.range' (r.anchors.length + 1) n := by
  induction h with
  | last hstep hend => exact ⟨0, by simp [hend, EventKind.anchor, EventKind.properties?]⟩
  | @next r r' e events hstep hend hrest ih =>
    obtain ⟨n, hn⟩ := ih
    have hzero (h₀ : e.kind.anchor = 0) (hsame : r'.anchors = r.anchors) : ∃ n,
        ((e :: events).map (·.kind.anchor)).filter (· != 0) =
          List.range' (r.anchors.length + 1) n :=
      ⟨n, by rw [List.map_cons, List.filter_cons_of_neg (by simp [h₀]), hn, hsame]⟩
    cases yields_step hstep with
    | aliasOf _ _ _ hpasses => exact hzero rfl hpasses.2
    | node hp hdefines =>
      have hanchorOf := EventKind.anchor_of_properties? hp
      cases hdefines with
      | none h₀ hanchors => exact hzero (hanchorOf.trans h₀) hanchors
      | anchor _ _ hnumber hanchors =>
        refine ⟨n + 1, ?_⟩
        rw [List.map_cons, List.filter_cons_of_pos (by simp [hanchorOf, hnumber]), hn, hanchorOf,
          hnumber, hanchors]
        rfl
    | mark hp _ hpasses =>
      exact hzero (by rw [EventKind.anchor, hp]; rfl) hpasses.2

end EventReader

end PipelineScripts.Yaml
