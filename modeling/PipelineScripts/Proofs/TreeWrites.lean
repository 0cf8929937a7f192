import Mathlib.Data.List.Basic
import PipelineScripts.Files.Tree
import PipelineScripts.Proofs.Results

/-!
# Writing into a file tree

What a file tree holds after something was put into it. Making directories and writing files only
add places, so a path name that led to something still does. Where it leads can be told from its
segments alone, and so files at different places do not get in each other's way.
-/
namespace PipelineScripts.Files.Tree

/-! ### Entries and places -/

theorem lookup_setEntry (name k : Name) (u : Tree) (es : List (Name × Tree)) :
    (setEntry name u es).lookup k = if k = name then some u else es.lookup k := by
  induction es with
  | nil => exact lookup_cons_eq_ite name k u []
  | cons e rest ih =>
    obtain ⟨other, v⟩ := e
    rw [setEntry]
    by_cases heq : name = other
    · rw [if_pos heq, lookup_cons_eq_ite]
      by_cases hk : k = name
      · rw [if_pos hk, if_pos hk]
      · rw [if_neg hk, if_neg hk, List.lookup_cons, beq_false_of_ne (heq ▸ hk)]
    · rw [if_neg heq]
      by_cases hlt : name < other
      · rw [if_pos hlt, lookup_cons_eq_ite]
      · rw [if_neg hlt, List.lookup_cons, List.lookup_cons, ih]
        by_cases hk : k = other
        · rw [if_neg fun h => heq (h.symm.trans hk), if_neg fun h => heq (h.symm.trans hk)]
        · rw [beq_false_of_ne hk]

@[simp] theorem get?_nil (t : Tree) : t.get? [] = some t := by rw [get?]

theorem get?_cons (t : Tree) (name : Name) (rest : List Name) :
    t.get? (name :: rest) = (t.entries.lookup name).bind fun u => u.get? rest := by rw [get?]

theorem get?_append (t : Tree) (p q : List Name) :
    t.get? (p ++ q) = (t.get? p).bind fun u => u.get? q := by
  induction p generalizing t with
  | nil => simp
  | cons name rest ih =>
    rw [List.cons_append, get?_cons, get?_cons]
    cases t.entries.lookup name with
    | none => rfl
    | some u => exact ih u

theorem hasDirectory_iff {t : Tree} {p : List Name} :
    t.hasDirectory p = true ↔ ∃ u, t.get? p = some u ∧ u.isDirectory = true := by
  unfold hasDirectory
  cases t.get? p <;> simp

/-- Only directories have places below them. -/
theorem hasDirectory_of_isSome {t : Tree} {p : List Name} {name : Name} {rest : List Name}
    (h : (t.get? (p ++ name :: rest)).isSome = true) : t.hasDirectory p = true := by
  rw [get?_append] at h
  rw [hasDirectory_iff]
  cases hp : t.get? p with
  | none => simp [hp] at h
  | some u =>
    refine ⟨u, rfl, ?_⟩
    rw [hp, Option.bind_some, get?_cons] at h
    cases u with
    | text => simp [entries] at h
    | binary => simp [entries] at h
    | directory => rfl

theorem isSome_of_hasDirectory {t : Tree} {p : List Name} (h : t.hasDirectory p = true) :
    (t.get? p).isSome = true := by
  obtain ⟨u, hu, -⟩ := hasDirectory_iff.mp h
  simp [hu]

theorem hasDirectory_above {t : Tree} {p q : List Name} (habove : q <+: p)
    (h : t.hasDirectory p = true) : t.hasDirectory q = true := by
  obtain ⟨rest, rfl⟩ := habove
  cases rest with
  | nil => simpa using h
  | cons name rest => exact hasDirectory_of_isSome (isSome_of_hasDirectory h)

/-! ### Putting something at a place -/

theorem get?_put_append (t u : Tree) (p q : List Name) : (t.put u p).get? (p ++ q) = u.get? q := by
  induction p generalizing t with
  | nil => rw [put, List.nil_append]
  | cons name rest ih =>
    rw [put, List.cons_append, get?_cons, entries, lookup_setEntry, if_pos rfl]
    exact ih _

theorem get?_put_self (t u : Tree) (p : List Name) : (t.put u p).get? p = some u := by
  have h := get?_put_append t u p []
  rwa [List.append_nil, get?_nil] at h

theorem get?_put_of_apart (t u : Tree) {p q : List Name} (h : ¬ p <+: q) (h' : ¬ q <+: p) :
    (t.put u p).get? q = t.get? q := by
  induction p generalizing t q with
  | nil => simp at h
  | cons name rest ih =>
    cases q with
    | nil => simp at h'
    | cons other more =>
      rw [put, get?_cons, get?_cons, entries, lookup_setEntry]
      by_cases heq : other = name
      · subst heq
        simp only [List.cons_prefix_cons, true_and] at h h'
        rw [if_pos rfl, Option.bind_some, ih _ h h']
        cases hlookup : t.entries.lookup other with
        | some v => rfl
        | none =>
          cases more with
          | nil => simp at h'
          | cons => rw [Option.getD_none, get?_cons]; rfl
      · rw [if_neg heq]

theorem hasDirectory_put_above (t u : Tree) {p q : List Name} (h : q <+: p) (hne : q ≠ p) :
    (t.put u p).hasDirectory q = true := by
  obtain ⟨rest, rfl⟩ := h
  cases rest with
  | nil => simp at hne
  | cons name rest =>
    have hsome : ((t.put u (q ++ name :: rest)).get? (q ++ name :: rest)).isSome = true := by
      rw [get?_put_self]
      rfl
    exact hasDirectory_of_isSome hsome

/-! ### Trees that only grow -/

/-- What is there stays there, and directories stay directories. -/
structure Grows (t u : Tree) : Prop where
  directory : ∀ {p : List Name}, t.hasDirectory p = true → u.hasDirectory p = true
  present : ∀ {p : List Name}, (t.get? p).isSome = true → (u.get? p).isSome = true

namespace Grows

theorem refl (t : Tree) : Grows t t := ⟨id, id⟩

theorem trans {t u v : Tree} (h : Grows t u) (h' : Grows u v) : Grows t v :=
  ⟨fun hp => h'.directory (h.directory hp), fun hp => h'.present (h.present hp)⟩

end Grows

/-- Nothing is lost when something is put where no directory is. -/
theorem grows_put (t u : Tree) {p : List Name} (h : t.hasDirectory p = false) :
    Grows t (t.put u p) := by
  have hbelow : ∀ name rest, (t.get? (p ++ name :: rest)).isSome = false := by
    intro name rest
    by_contra hsome
    rw [Bool.not_eq_false] at hsome
    simp [hasDirectory_of_isSome hsome] at h
  constructor
  · intro q hq
    by_cases hpq : p <+: q
    · have hsome := isSome_of_hasDirectory hq
      obtain ⟨rest, rfl⟩ := hpq
      cases rest with
      | nil => simp [h] at hq
      | cons name rest => simp [hbelow name rest] at hsome
    · by_cases hqp : q <+: p
      · exact hasDirectory_put_above t u hqp fun heq => hpq (heq ▸ List.prefix_rfl)
      · rwa [hasDirectory, get?_put_of_apart t u hpq hqp]
  · intro q hq
    by_cases hpq : p <+: q
    · obtain ⟨rest, rfl⟩ := hpq
      cases rest with
      | nil => simp [get?_put_self]
      | cons name rest => simp [hbelow name rest] at hq
    · by_cases hqp : q <+: p
      · exact isSome_of_hasDirectory
          (hasDirectory_put_above t u hqp fun heq => hpq (heq ▸ List.prefix_rfl))
      · rwa [get?_put_of_apart t u hpq hqp]

/-- Other texts are kept when something is put into a directory, where no directory is. -/
theorem get?_put_of_text (t u : Tree) {place p : List Name} {name : Name} {c : String}
    (hplace : t.hasDirectory place = true) (hno : t.hasDirectory (place ++ [name]) = false)
    (hne : p ≠ place ++ [name]) (h : t.get? p = some (text c)) :
    (t.put u (place ++ [name])).get? p = some (text c) := by
  have hfile : t.hasDirectory p = false := by simp [hasDirectory, h, isDirectory]
  rw [get?_put_of_apart t u ?_ ?_, h]
  · intro habove
    obtain ⟨rest, rfl⟩ := habove
    cases rest with
    | nil => simp at hne
    | cons other rest =>
      have hsome : (t.get? (place ++ [name] ++ other :: rest)).isSome = true := by
        rw [h]
        rfl
      simp [hasDirectory_of_isSome hsome] at hno
  · intro habove
    have hshort : p <+: place := (List.prefix_concat_iff.mp habove).resolve_left hne
    simp [hasDirectory_above hshort hplace] at hfile

/-! ### Following path names -/

/-- Where a segment leads from a place, if it leads anywhere. -/
def step? (place : List Name) (segment : List Char) : Option (List Name) :=
  match Path.segmentComponent? segment with
  | some (.normal name) => some (place ++ [name])
  | some .parent => parentPlace? place
  | _ => some place

theorem prefix_of_parentPlace? {place up : List Name} (h : parentPlace? place = some up) :
    up <+: place := by
  unfold parentPlace? at h
  split_ifs at h
  cases h
  exact List.dropLast_prefix place

theorem follow?_eq_some {t : Tree} {place next : List Name} {segment : List Char} :
    t.follow? place segment = some next ↔ t.hasDirectory place = true ∧
      step? place segment = some next ∧ (t.get? next).isSome = true := by
  have hstays : t.hasDirectory place = true → (t.get? place).isSome = true :=
    isSome_of_hasDirectory
  have hup : ∀ up, parentPlace? place = some up → t.hasDirectory place = true →
      (t.get? up).isSome = true := fun up h hplace =>
    isSome_of_hasDirectory (hasDirectory_above (prefix_of_parentPlace? h) hplace)
  unfold follow? step?
  cases hplace : t.hasDirectory place with
  | false => simp
  | true =>
    simp only [Bool.not_true, Bool.false_eq_true, if_false, true_and]
    rcases Path.segmentComponent? segment with _ | _ | _ | _ | name <;> dsimp only
    · exact ⟨fun h => ⟨h, Option.some.inj h ▸ hstays hplace⟩, fun h => h.1⟩
    · exact ⟨fun h => ⟨h, Option.some.inj h ▸ hstays hplace⟩, fun h => h.1⟩
    · exact ⟨fun h => ⟨h, Option.some.inj h ▸ hstays hplace⟩, fun h => h.1⟩
    · exact ⟨fun h => ⟨h, hup next h hplace⟩, fun h => h.1⟩
    · split_ifs with hsome
      · exact ⟨fun h => ⟨h, Option.some.inj h ▸ hsome⟩, fun h => h.1⟩
      · simp only [false_iff, not_and, Option.some.injEq]
        exact fun h => h ▸ hsome

theorem Grows.foldlM_follow? {t u : Tree} (h : Grows t u) {segments : List (List Char)}
    {place next : List Name} (hfollow : segments.foldlM t.follow? place = some next) :
    segments.foldlM u.follow? place = some next := by
  induction segments generalizing place with
  | nil => exact hfollow
  | cons segment rest ih =>
    obtain ⟨mid, hmid, hrest⟩ := Option.bind_eq_some_iff.mp hfollow
    obtain ⟨hdir, hstep, hsome⟩ := follow?_eq_some.mp hmid
    refine Option.bind_eq_some_iff.mpr ⟨mid, ?_, ih hrest⟩
    exact follow?_eq_some.mpr ⟨h.directory hdir, hstep, h.present hsome⟩

/-- Where a path name leads can be told from its segments. -/
theorem foldlM_step?_of_follow? {t : Tree} {segments : List (List Char)} {place next : List Name}
    (h : segments.foldlM t.follow? place = some next) :
    segments.foldlM step? place = some next := by
  induction segments generalizing place with
  | nil => exact h
  | cons segment rest ih =>
    obtain ⟨mid, hmid, hrest⟩ := Option.bind_eq_some_iff.mp h
    exact Option.bind_eq_some_iff.mpr ⟨mid, (follow?_eq_some.mp hmid).2.1, ih hrest⟩

theorem read?_eq_some {t : Tree} {path : List Char} {c : String} :
    t.read? path = some c ↔ isUsable path = true ∧ ∃ place,
      (Path.segments path).foldlM t.follow? [] = some place ∧ t.get? place = some (text c) := by
  unfold read? lookup? place?
  cases isUsable path with
  | false => simp
  | true =>
    simp only [if_true, true_and]
    cases (Path.segments path).foldlM t.follow? [] with
    | none => simp
    | some place =>
      simp only [Option.bind_some, Option.some.injEq, exists_eq_left']
      split
      next content hcontent => simp [hcontent]
      next hno =>
        simp only [reduceCtorEq, false_iff]
        exact fun h => hno c h

/-- Where a file is that can be read. -/
theorem hasDirectory_nil_of_read? {t : Tree} {path : List Char} {c : String}
    (h : t.read? path = some c) : t.hasDirectory [] = true := by
  obtain ⟨-, place, hplace, -⟩ := read?_eq_some.mp h
  cases hsegments : Path.segments path with
  | nil => exact absurd hsegments (Text.split_ne_nil _ path)
  | cons segment rest =>
    rw [hsegments] at hplace
    obtain ⟨mid, hmid, -⟩ := Option.bind_eq_some_iff.mp hplace
    exact (follow?_eq_some.mp hmid).1

/-- A file can still be read in a tree that grew if its text stayed in its place. -/
theorem Grows.read? {t u : Tree} (h : Grows t u) {path : List Char} {c : String}
    (hread : t.read? path = some c)
    (htext : ∀ place, (Path.segments path).foldlM step? [] = some place →
      t.get? place = some (text c) → u.get? place = some (text c)) : u.read? path = some c := by
  obtain ⟨husable, place, hplace, hc⟩ := read?_eq_some.mp hread
  refine read?_eq_some.mpr ⟨husable, place, h.foldlM_follow? hplace, ?_⟩
  exact htext place (foldlM_step?_of_follow? hplace) hc

/-! ### Making directories -/

/-- A tree that grew and still has all its texts. -/
structure Keeps (t u : Tree) : Prop where
  grows : Grows t u
  texts : ∀ {p : List Name} {c : String}, t.get? p = some (text c) → u.get? p = some (text c)

theorem Keeps.refl (t : Tree) : Keeps t t := ⟨Grows.refl t, id⟩

theorem Keeps.trans {t u v : Tree} (h : Keeps t u) (h' : Keeps u v) : Keeps t v :=
  ⟨h.grows.trans h'.grows, fun hp => h'.texts (h.texts hp)⟩

theorem keeps_of_enter? {t u : Tree} {place next : List Name} {segment : List Char}
    (hplace : t.hasDirectory place = true) (h : t.enter? place segment = some (u, next)) :
    Keeps t u ∧ u.hasDirectory next = true := by
  unfold enter? at h
  split at h
  next name _ =>
    dsimp only at h
    split at h
    next hnone =>
      split_ifs at h
      cases h
      have hno : t.hasDirectory (place ++ [name]) = false := by simp [hasDirectory, hnone]
      refine ⟨⟨grows_put t _ hno, fun {p c} hp => ?_⟩, ?_⟩
      · refine get?_put_of_text t _ hplace hno (fun heq => ?_) hp
        rw [heq, hnone] at hp
        cases hp
      · exact hasDirectory_iff.mpr ⟨_, get?_put_self _ _ _, rfl⟩
    next v hv =>
      split_ifs at h with hdir
      cases h
      exact ⟨Keeps.refl t, hasDirectory_iff.mpr ⟨v, hv, hdir⟩⟩
  next =>
    obtain ⟨up, hup, heq⟩ := Option.map_eq_some_iff.mp h
    cases heq
    exact ⟨Keeps.refl t, hasDirectory_above (prefix_of_parentPlace? hup) hplace⟩
  next =>
    cases h
    exact ⟨Keeps.refl t, hplace⟩

theorem keeps_enterAll (segments : List (List Char)) {t : Tree} {place : List Name}
    (hplace : t.hasDirectory place = true) : Keeps t (t.enterAll place segments).tree := by
  induction segments generalizing t place with
  | nil => exact Keeps.refl t
  | cons segment rest ih =>
    rw [enterAll]
    split
    next => exact Keeps.refl t
    next u next henter =>
      obtain ⟨hkeeps, hdirectory⟩ := keeps_of_enter? hplace henter
      exact hkeeps.trans (ih hdirectory)

/-- Making directories changes no file, whether all of them can be made or not. -/
theorem keeps_makeDirectories {t : Tree} (path : List Char) (hroot : t.hasDirectory [] = true) :
    Keeps t (t.makeDirectories path).tree := by
  unfold makeDirectories
  split_ifs
  · exact Keeps.refl t
  · exact keeps_enterAll _ hroot
  · exact Keeps.refl t

/-! ### Writing a file -/

/-- What writing a file at a path name does. -/
structure Wrote (t : Tree) (path : List Char) (content : String) (u : Tree) : Prop where
  grows : Grows t u
  read : u.read? path = some content
  others : ∀ {p : List Name} {c : String}, (Path.segments path).foldlM step? [] ≠ some p →
    t.get? p = some (text c) → u.get? p = some (text c)

theorem wrote_of_write? {t u : Tree} {path : List Char} {content : String}
    (h : t.write? path content = some u) : Wrote t path content u := by
  unfold write? at h
  split_ifs at h with husable
  rw [Bool.not_eq_true', Bool.not_eq_false] at husable
  split at h
  next => cases h
  next last before hsegments =>
    split at h
    next name place hname hplace =>
      split_ifs at h with hdir
      rw [Bool.and_eq_true, Bool.not_eq_true'] at hdir
      cases h
      have hreverse : Path.segments path = before.reverse ++ [last] := by
        rw [← List.reverse_reverse (Path.segments path), hsegments, List.reverse_cons]
      have hstep : step? place last = some (place ++ [name]) := by simp [step?, hname]
      have hgrows := grows_put t (text content) hdir.2
      refine ⟨hgrows, ?_, ?_⟩
      · refine read?_eq_some.mpr ⟨husable, place ++ [name], ?_, get?_put_self _ _ _⟩
        rw [hreverse, List.foldlM_append, hgrows.foldlM_follow? hplace]
        have hlast : (t.put (text content) (place ++ [name])).follow? place last =
            some (place ++ [name]) := by
          refine follow?_eq_some.mpr ⟨hgrows.directory hdir.1, hstep, ?_⟩
          rw [get?_put_self]
          rfl
        simp [hlast]
      · intro p c hp hc
        refine get?_put_of_text t _ hdir.1 hdir.2 (fun heq => hp ?_) hc
        rw [hreverse, List.foldlM_append, foldlM_step?_of_follow? hplace, heq]
        simp [hstep]
    next => cases h

/-- Writing a file leaves all others readable that are in other places. -/
theorem Wrote.read? {t u : Tree} {path other : List Char} {content c : String}
    (h : Wrote t path content u)
    (hplaces : (Path.segments path).foldlM step? [] ≠ (Path.segments other).foldlM step? [])
    (hread : t.read? other = some c) : u.read? other = some c := by
  refine h.grows.read? hread fun place hplace hc => h.others (fun heq => hplaces ?_) hc
  rw [heq, hplace]

end PipelineScripts.Files.Tree
