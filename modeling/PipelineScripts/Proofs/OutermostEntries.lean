import PipelineScripts.Proofs.CopiedDocument
import PipelineScripts.Proofs.Suppression

/-!
# Outermost annotated entries

The second pass walks through the documents of a file and extracts the entries with a directive that
no job has. It goes no further down at an entry that it extracts, or that a job has. So it extracts
those that have no such entry above them, each of them once.
-/
namespace PipelineScripts.Yaml.File

/-- Where the walk goes on from a node: to the entries of a mapping, the items of a sequence, the
value of an entry, and what is behind an anchor or a tag. Keys and the targets of aliases are not
looked at. -/
def walkedChildren (f : File) (id : NodeId) : List NodeId :=
  match f.kind? id with
  | some (.mapping entries) => entries
  | some (.sequence items _) => items
  | some (.entry _ value _) | some (.anchor _ value) | some (.tagged _ value) => [value]
  | _ => []

/-- One step of the walk. -/
def WalksTo (f : File) (a b : NodeId) : Prop := b ∈ f.walkedChildren a

def IsEntry (f : File) (id : NodeId) : Prop :=
  ∃ key value comments, f.kind? id = some (.entry key value comments)

theorem walkedChildren_sublist (f : File) (id : NodeId) :
    (f.walkedChildren id).Sublist (f.children id) := by
  unfold walkedChildren
  split
  next entries hk => simp [children_of_kind? hk, NodeKind.children]
  next items comments hk => simp [children_of_kind? hk, NodeKind.children]
  next key value comments hk => simp [children_of_kind? hk, NodeKind.children]
  next name value hk => simp [children_of_kind? hk, NodeKind.children]
  next tag value hk => simp [children_of_kind? hk, NodeKind.children]
  next => simp

theorem WalksTo.below {f : File} {a b : NodeId} (h : f.WalksTo a b) : f.Below a b :=
  (f.walkedChildren_sublist a).subset h

theorem below_of_walksTo {f : File} {a b : NodeId} (h : Relation.ReflTransGen f.WalksTo a b) :
    Relation.ReflTransGen f.Below a b :=
  Relation.ReflTransGen.mono (fun _ _ hstep => hstep.below) _ _ h

end PipelineScripts.Yaml.File

namespace PipelineScripts.Script

open Yaml Relation

/-! ### One step of the walk -/

namespace Scope

/-- An entry holds a script: it has a directive, and its value stands for one fragment or more. -/
def HoldsScript (s : Scope) (e : NodeId) : Prop :=
  ∃ key value comments fragments, s.file.kind? e = some (.entry key value comments) ∧
    (Directive.ofComments? (comments.map (·.text))).isSome ∧ s.expand value = .ok fragments ∧
    fragments ≠ []

/-- The walk goes no further down at an entry. -/
def Closes (s : Scope) (covered : List NodeId) (a : NodeId) : Prop :=
  s.file.IsEntry a ∧ (a ∈ covered ∨ s.HoldsScript a)

/-- A step of the walk from a node where it goes further down. -/
def GoesOn (s : Scope) (covered : List NodeId) (a b : NodeId) : Prop :=
  ¬ s.Closes covered a ∧ s.file.WalksTo a b

theorem HoldsScript.isEntry {s : Scope} {e : NodeId} (h : s.HoldsScript e) : s.file.IsEntry e := by
  obtain ⟨key, value, comments, -, hk, -⟩ := h
  exact ⟨key, value, comments, hk⟩

theorem holdsScript_iff (s : Scope) {e key value : NodeId} {comments : List Comment}
    (hk : s.file.kind? e = some (.entry key value comments)) :
    s.HoldsScript e ↔ (Directive.ofComments? (comments.map (·.text))).isSome ∧
      ∃ fragments, s.expand value = .ok fragments ∧ fragments ≠ [] := by
  constructor
  · rintro ⟨key', value', comments', fragments, hk', hsome, hexpand, hne⟩
    cases hk.symm.trans hk'
    exact ⟨hsome, fragments, hexpand, hne⟩
  · rintro ⟨hsome, fragments, hexpand, hne⟩
    exact ⟨key, value, comments, fragments, hk, hsome, hexpand, hne⟩

theorem walksTo_of_goesOn {s : Scope} {covered : List NodeId} {a b : NodeId}
    (h : ReflTransGen (s.GoesOn covered) a b) : ReflTransGen s.file.WalksTo a b :=
  ReflTransGen.mono (fun _ _ hstep => hstep.2) _ _ h

end Scope

variable {s : Scope} {covered : List NodeId}

/-- At an entry the walk leaves it out if it is covered, extracts it if it holds a script, and goes
on with its value otherwise. -/
theorem annotatedWithin_entry {depth : Nat} {id key value : NodeId} {comments : List Comment}
    {drafts : List Draft} (hk : s.file.kind? id = some (.entry key value comments))
    (h : annotatedWithin s covered (depth + 1) id = .ok drafts) :
    (id ∈ covered ∧ drafts = []) ∨
    (id ∉ covered ∧ s.HoldsScript id ∧ ∃ d, drafts = [d] ∧ d.entry = id ∧ d.fragments ≠ []) ∨
    (id ∉ covered ∧ ¬ s.HoldsScript id ∧ annotatedWithin s covered depth value = .ok drafts) := by
  rw [annotatedWithin, hk] at h
  dsimp only at h
  rw [s.holdsScript_iff hk]
  split_ifs at h with hcovered hnone
  · cases h
    exact .inl ⟨by simpa using hcovered, rfl⟩
  · refine .inr (.inr ⟨by simpa using hcovered, ?_, h⟩)
    rintro ⟨hsome, -⟩
    rw [Option.isNone_iff_eq_none] at hnone
    rw [hnone] at hsome
    cases hsome
  · have hmem : id ∉ covered := by simpa using hcovered
    split at h
    next => cases h
    next hexpand =>
      -- The directive is for no script, so the value is looked into.
      refine .inr (.inr ⟨hmem, ?_, h⟩)
      rintro ⟨-, fragments, hfragments, hne⟩
      cases hexpand.symm.trans hfragments
      exact hne rfl
    next fragments hne hexpand =>
      cases h
      have hne' : fragments ≠ [] := fun heq => hne heq
      rw [Option.isNone_iff_eq_none, ← ne_eq, Option.ne_none_iff_isSome] at hnone
      exact .inr (.inl ⟨hmem, ⟨hnone, fragments, hexpand, hne'⟩, _, rfl, rfl, hne'⟩)

/-- What the walk does at a node: it leaves out a covered entry, extracts one that holds a script,
or goes further down. -/
theorem annotatedWithin_cases {depth : Nat} {id : NodeId} {drafts : List Draft}
    (h : annotatedWithin s covered (depth + 1) id = .ok drafts) :
    (s.file.IsEntry id ∧ id ∈ covered ∧ drafts = []) ∨
    (id ∉ covered ∧ s.HoldsScript id ∧ ∃ d, drafts = [d] ∧ d.entry = id ∧ d.fragments ≠ []) ∨
    (¬ s.Closes covered id ∧
      concatResults (annotatedWithin s covered depth) (s.file.walkedChildren id) =
        .ok drafts) := by
  by_cases hentry : s.file.IsEntry id
  · obtain ⟨key, value, comments, hk⟩ := hentry
    rcases annotatedWithin_entry hk h with ⟨hcovered, rfl⟩ | hscript | ⟨hcovered, hscript, h⟩
    · exact .inl ⟨⟨key, value, comments, hk⟩, hcovered, rfl⟩
    · exact .inr (.inl hscript)
    · refine .inr (.inr ⟨?_, ?_⟩)
      · rintro ⟨-, hmem | hholds⟩
        · exact hcovered hmem
        · exact hscript hholds
      · rwa [File.walkedChildren, hk, concatResults_singleton]
  · refine .inr (.inr ⟨fun hclosed => hentry hclosed.1, ?_⟩)
    rw [annotatedWithin] at h
    unfold File.walkedChildren
    split at h
    next hk => rwa [hk]
    next hk => rwa [hk]
    next hk => rwa [hk, concatResults_singleton]
    next hk => rwa [hk, concatResults_singleton]
    next key value comments hk => exact absurd ⟨key, value, comments, hk⟩ hentry
    next hmapping hsequence hanchor htagged _ =>
      split
      next hk => exact absurd hk (hmapping _)
      next hk => exact absurd hk (hsequence _ _)
      next hk => exact absurd ⟨_, _, _, hk⟩ hentry
      next hk => exact absurd hk (hanchor _ _)
      next hk => exact absurd hk (htagged _ _)
      next => exact h

/-! ### The whole walk -/

namespace Scope

/-- An entry is extracted by the walk from a node, which gets as far as to it. -/
structure Extracts (s : Scope) (covered : List NodeId) (id e : NodeId) : Prop where
  reached : ReflTransGen (s.GoesOn covered) id e
  holdsScript : s.HoldsScript e
  not_covered : e ∉ covered

namespace Extracts

variable {id e : NodeId}

theorem closes (h : s.Extracts covered id e) : s.Closes covered e :=
  ⟨h.holdsScript.isEntry, .inr h.holdsScript⟩

/-- Where the walk goes no further down, nothing else is extracted. -/
theorem eq_of_closes (h : s.Extracts covered id e) (hid : s.Closes covered id) : e = id := by
  rcases ReflTransGen.cases_head h.reached with heq | ⟨child, hstep, -⟩
  · exact heq.symm
  · exact absurd hid hstep.1

theorem iff_of_goesOn (hid : ¬ s.Closes covered id) :
    s.Extracts covered id e ↔ ∃ child ∈ s.file.walkedChildren id, s.Extracts covered child e := by
  constructor
  · intro h
    rcases ReflTransGen.cases_head h.reached with rfl | ⟨child, hstep, hreached⟩
    · exact absurd h.closes hid
    · exact ⟨child, hstep.2, hreached, h.holdsScript, h.not_covered⟩
  · rintro ⟨child, hchild, h⟩
    exact ⟨h.reached.head ⟨hid, hchild⟩, h.holdsScript, h.not_covered⟩

end Extracts

end Scope

theorem mem_entries_annotatedWithin {depth : Nat} {id e : NodeId} {drafts : List Draft}
    (h : annotatedWithin s covered depth id = .ok drafts) :
    e ∈ drafts.map (·.entry) ↔ s.Extracts covered id e := by
  induction depth generalizing id drafts with
  | zero => cases h
  | succ depth ih =>
    rcases annotatedWithin_cases h with
      ⟨hentry, hcovered, rfl⟩ | ⟨hcovered, hholds, d, rfl, rfl, -⟩ | ⟨hid, hparts⟩
    · refine ⟨by simp, fun he => ?_⟩
      have heq := he.eq_of_closes ⟨hentry, .inl hcovered⟩
      exact absurd (heq ▸ hcovered) he.not_covered
    · rw [List.map_singleton, List.mem_singleton]
      constructor
      · rintro rfl
        exact ⟨.refl, hholds, hcovered⟩
      · intro he
        exact he.eq_of_closes ⟨hholds.isEntry, .inr hholds⟩
    · rw [Scope.Extracts.iff_of_goesOn hid, List.mem_map]
      constructor
      · rintro ⟨d, hd, rfl⟩
        obtain ⟨child, hchild, part, hpart, hd⟩ := exists_of_mem_concatResults hparts hd
        exact ⟨child, hchild, (ih hpart).mp (List.mem_map_of_mem hd)⟩
      · rintro ⟨child, hchild, he⟩
        obtain ⟨part, hpart, hsub⟩ := exists_part_of_mem hparts hchild
        obtain ⟨d, hd, rfl⟩ := List.mem_map.mp ((ih hpart).mpr he)
        exact ⟨d, hsub hd, rfl⟩

/-- The walk meets the entries it extracts in the order of the document. -/
theorem entries_sublist_annotatedWithin {depth : Nat} {id : NodeId} {drafts : List Draft}
    (h : annotatedWithin s covered depth id = .ok drafts) :
    (drafts.map (·.entry)).Sublist (s.file.preorderWithin depth id) := by
  induction depth generalizing id drafts with
  | zero => cases h
  | succ depth ih =>
    rw [File.preorderWithin]
    rcases annotatedWithin_cases h with
      ⟨-, -, rfl⟩ | ⟨-, -, d, rfl, rfl, -⟩ | ⟨-, hparts⟩
    · exact List.nil_sublist _
    · simp
    · refine .cons id ?_
      refine (map_sublist_concatResults (fun _ _ _ hpart => ih hpart) hparts).trans ?_
      exact (s.file.walkedChildren_sublist id).flatMap _

theorem fragments_ne_nil_of_annotatedWithin {depth : Nat} {id : NodeId} {drafts : List Draft}
    (h : annotatedWithin s covered depth id = .ok drafts) : ∀ d ∈ drafts, d.fragments ≠ [] := by
  induction depth generalizing id drafts with
  | zero => cases h
  | succ depth ih =>
    rcases annotatedWithin_cases h with ⟨-, -, rfl⟩ | ⟨-, -, d, rfl, -, hne⟩ | ⟨-, hparts⟩
    · simp
    · simpa using hne
    · intro d hd
      obtain ⟨child, -, part, hpart, hd⟩ := exists_of_mem_concatResults hparts hd
      exact ih hpart d hd

/-! ### Documents -/

section Documents

variable {f : File}

theorem Scope.IsOf.root_mem (h : Scope.IsOf f s) : s.root ∈ f.roots :=
  List.mem_filterMap.mpr ⟨_, h.root, rfl⟩

/-- A document has one scope. -/
theorem Scope.IsOf.eq_of_root {t : Scope} (hs : Scope.IsOf f s) (ht : Scope.IsOf f t)
    (hroot : s.root = t.root) : s = t := by
  have haliases := hs.aliases
  rw [hroot, ht.aliases] at haliases
  cases s
  cases t
  cases hs.file
  cases ht.file
  cases hroot
  cases haliases
  rfl

theorem exists_scope_of_annotatedInDocument {root : NodeId} {drafts : List Draft}
    (hroot : root ∈ f.roots) (h : annotatedInDocument f covered root = .ok drafts) :
    ∃ s, Scope.IsOf f s ∧ s.root = root ∧
      annotatedWithin s covered f.nodes.size root = .ok drafts := by
  obtain ⟨aliases, hbuild, h⟩ := bind_eq_ok.mp h
  obtain ⟨-, hmem, rfl⟩ := List.mem_filterMap.mp hroot
  exact ⟨⟨f, root, aliases⟩, ⟨rfl, hmem, hbuild⟩, rfl, h⟩

theorem map_entry_numbered (count : Nat) (drafts : List Draft) :
    (Draft.numbered count drafts).map (·.entry) = drafts.map (·.entry) := by
  induction drafts generalizing count with
  | nil => rfl
  | cons d rest ih => simp [Draft.numbered, ih]

/-- The walks through all documents. -/
theorem mem_entries_annotatedDrafts {drafts : List Draft} {e : NodeId}
    (h : annotatedDrafts f covered = .ok drafts) :
    e ∈ drafts.map (·.entry) ↔ ∃ s, Scope.IsOf f s ∧ s.Extracts covered s.root e := by
  obtain ⟨found, hfound, rfl⟩ := map_eq_ok.mp h
  rw [map_entry_numbered]
  constructor
  · intro he
    obtain ⟨d, hd, rfl⟩ := List.mem_map.mp he
    obtain ⟨root, hroot, part, hpart, hd⟩ := exists_of_mem_concatResults hfound hd
    obtain ⟨s, hs, rfl, hwalk⟩ := exists_scope_of_annotatedInDocument hroot hpart
    exact ⟨s, hs, (mem_entries_annotatedWithin hwalk).mp (List.mem_map_of_mem hd)⟩
  · rintro ⟨s, hs, he⟩
    obtain ⟨part, hpart, hsub⟩ := exists_part_of_mem hfound hs.root_mem
    obtain ⟨t, ht, hroot, hwalk⟩ := exists_scope_of_annotatedInDocument hs.root_mem hpart
    cases ht.eq_of_root hs hroot
    obtain ⟨d, hd, rfl⟩ := List.mem_map.mp ((mem_entries_annotatedWithin hwalk).mpr he)
    exact List.mem_map_of_mem (hsub hd)

theorem entries_sublist_annotatedDrafts {drafts : List Draft}
    (h : annotatedDrafts f covered = .ok drafts) :
    (drafts.map (·.entry)).Sublist (f.roots.flatMap f.preorder) := by
  obtain ⟨found, hfound, rfl⟩ := map_eq_ok.mp h
  rw [map_entry_numbered]
  refine map_sublist_concatResults (fun root hroot part hpart => ?_) hfound
  obtain ⟨s, hs, rfl, hwalk⟩ := exists_scope_of_annotatedInDocument hroot hpart
  have hsublist := entries_sublist_annotatedWithin hwalk
  rwa [hs.file] at hsublist

theorem fragments_ne_nil_of_annotatedDrafts {drafts : List Draft}
    (h : annotatedDrafts f covered = .ok drafts) : ∀ d ∈ drafts, d.fragments ≠ [] := by
  obtain ⟨found, hfound, rfl⟩ := map_eq_ok.mp h
  intro d hd
  obtain ⟨d', hd', index, rfl⟩ := exists_of_mem_numbered hd
  obtain ⟨root, hroot, part, hpart, hd'⟩ := exists_of_mem_concatResults hfound hd'
  obtain ⟨s, -, -, hwalk⟩ := exists_scope_of_annotatedInDocument hroot hpart
  exact fragments_ne_nil_of_annotatedWithin hwalk d' hd'

end Documents

/-! ### Entries above others -/

/-- An entry is one of the outermost that hold a script, where `entries` are extracted: the walk
leads to it, and no entry above it is covered or extracted. -/
structure Scope.IsOutermost (s : Scope) (covered entries : List NodeId) (e : NodeId) : Prop where
  walked : ReflTransGen s.file.WalksTo s.root e
  holdsScript : s.HoldsScript e
  not_covered : e ∉ covered
  above : ∀ a, s.file.IsEntry a → ReflTransGen s.file.Below s.root a →
    TransGen s.file.Below a e → a ∉ covered ∧ a ∉ entries

section Above

variable {f : File}

/-- What is above a node that the walk gets to was met on the way, and the walk went on there. -/
theorem not_closes_of_above (hf : f.Forest) (hs : Scope.IsOf f s) {a e : NodeId}
    (hreached : ReflTransGen (s.GoesOn covered) s.root e) (ha : ReflTransGen f.Below s.root a)
    (habove : TransGen f.Below a e) : ¬ s.Closes covered a := by
  -- The last step of both ways is from the same node, since no other one is above `e`.
  induction hreached with
  | refl => exact absurd (habove.trans_right ha) (hf.acyclic _)
  | @tail c e hreached hstep ih =>
    have hc : ReflTransGen f.Below s.root c :=
      hs.file ▸ File.below_of_walksTo (Scope.walksTo_of_goesOn hreached)
    obtain ⟨parent, hparent, hlast⟩ := TransGen.tail'_iff.mp habove
    have hsame : parent = c :=
      hf.parent_unique hs.root_mem (ha.trans hparent) hc hlast (hs.file ▸ hstep.2.below)
    subst hsame
    rcases reflTransGen_iff_eq_or_transGen.mp hparent with rfl | hparent
    · exact hstep.1
    · exact ih hparent

/-- The walk gets to where no entry above is covered or extracted. -/
theorem reached_of_walked {entries : List NodeId} {e : NodeId} (hs : s.file = f)
    (hentries : ∀ a, s.Extracts covered s.root a → a ∈ entries)
    (hwalked : ReflTransGen f.WalksTo s.root e)
    (habove : ∀ a, f.IsEntry a → ReflTransGen f.Below s.root a → TransGen f.Below a e →
      a ∉ covered ∧ a ∉ entries) : ReflTransGen (s.GoesOn covered) s.root e := by
  subst hs
  induction hwalked with
  | refl => exact .refl
  | @tail c e hwalked hstep ih =>
    have hreached := ih fun a hentry ha hac => habove a hentry ha (hac.tail hstep.below)
    refine hreached.tail ⟨?_, hstep⟩
    rintro ⟨hentry, hclosed⟩
    obtain ⟨hcovered, hextracted⟩ :=
      habove c hentry (File.below_of_walksTo hwalked) (.single hstep.below)
    rcases hclosed with hmem | hholds
    · exact hcovered hmem
    · exact hextracted (hentries c ⟨hreached, hholds, hcovered⟩)

/-- The entries that the walks through the documents extract. -/
theorem mem_entries_iff_isOutermost (hf : f.Forest) {entries : List NodeId}
    (h : ∀ e, e ∈ entries ↔ ∃ s, Scope.IsOf f s ∧ s.Extracts covered s.root e) (e : NodeId) :
    e ∈ entries ↔ ∃ s, Scope.IsOf f s ∧ s.IsOutermost covered entries e := by
  rw [h e]
  refine exists_congr fun s => and_congr_right fun hs => ⟨fun he => ?_, fun he => ?_⟩
  · refine ⟨Scope.walksTo_of_goesOn he.reached, he.holdsScript, he.not_covered, ?_⟩
    intro a hentry ha hae
    rw [hs.file] at ha hae
    have hopen := not_closes_of_above hf hs he.reached ha hae
    refine ⟨fun hmem => hopen ⟨hentry, .inl hmem⟩, fun hmem => ?_⟩
    -- The entry would be extracted from the same document.
    obtain ⟨t, ht, hextracts⟩ := (h a).mp hmem
    have hta : ReflTransGen f.Below t.root a :=
      ht.file ▸ File.below_of_walksTo (Scope.walksTo_of_goesOn hextracts.reached)
    cases hs.eq_of_root ht (hf.root_unique hs.root_mem ht.root_mem ha hta)
    exact hopen hextracts.closes
  · refine ⟨reached_of_walked hs.file (fun a ha => (h a).mpr ⟨s, hs, ha⟩) ?_ ?_,
      he.holdsScript, he.not_covered⟩
    · exact hs.file ▸ he.walked
    · exact hs.file ▸ he.above

end Above

/-! ### Blocks -/

/-- Blocks of some entries: for each in its turn one or more. -/
inductive BlocksOf : List NodeId → List Block → Prop
  | nil : BlocksOf [] []
  | cons {e : NodeId} {entries : List NodeId} {first blocks : List Block} (hne : first ≠ [])
      (hfirst : ∀ b ∈ first, b.entry = some e) (h : BlocksOf entries blocks) :
      BlocksOf (e :: entries) (first ++ blocks)

theorem BlocksOf.exists_entry {entries : List NodeId} {blocks : List Block}
    (h : BlocksOf entries blocks) {b : Block} (hb : b ∈ blocks) :
    ∃ e ∈ entries, b.entry = some e := by
  induction h with
  | nil => simp at hb
  | @cons e entries first blocks _ hfirst _ ih =>
    rcases List.mem_append.mp hb with hb | hb
    · exact ⟨e, by simp, hfirst b hb⟩
    · obtain ⟨e', he', hentry⟩ := ih hb
      exact ⟨e', List.mem_cons_of_mem e he', hentry⟩

theorem blocksOf_blocksOfAll {f : File} (shell : String) (names : BlockNames) {drafts : List Draft}
    (h : ∀ d ∈ drafts, d.fragments ≠ []) :
    BlocksOf (drafts.map (·.entry)) (Draft.blocksOfAll f shell names drafts).1 := by
  induction drafts generalizing names with
  | nil => exact .nil
  | cons d rest ih =>
    refine .cons ?_ ?_ (ih (d.blocks f shell names).2 fun x hx => h x (List.mem_cons_of_mem d hx))
    · intro hnil
      have hlength : d.fragments.length = ([] : List Block).length :=
        hnil ▸ (d.forall₂_blocks f shell names).length_eq
      rw [List.length_nil, List.length_eq_zero_iff] at hlength
      exact h d (by simp) hlength
    · intro b hb
      obtain ⟨fragment, -, name, rfl⟩ := mem_blocks hb
      rfl

/-- The entries of jobs stand in the document that holds the jobs. -/
theorem exists_root_of_mem_jobBlocks {f : File} (hf : f.Forest) {shell : String}
    {names rest : BlockNames} {jobs : List Block} (h : jobBlocks f shell names = .ok (jobs, rest))
    {b : Block} (hb : b ∈ jobs) : ∃ a, b.entry = some a ∧ f.IsEntry a ∧
      ∃ root ∈ f.roots, ReflTransGen f.Below root a := by
  obtain ⟨drafts, hdrafts, hblocks⟩ := map_eq_ok.mp h
  have hjobs : (Draft.blocksOfAll f shell names drafts).1 = jobs := congrArg Prod.fst hblocks
  obtain ⟨d, hd, fragment, -, name, rfl⟩ := mem_blocksOfAll (hjobs ▸ hb)
  refine ⟨d.entry, rfl, ?_, ?_⟩
  · obtain ⟨s, hs, key, value, comments, hk, -⟩ := Draft.isExpanded_of_jobDrafts hdrafts hd
    exact ⟨key, value, comments, hs.file ▸ hk⟩
  · cases hroot : jobRoot? f with
    | none =>
      have hnil : drafts = [] := by simpa [jobDrafts, hroot] using hdrafts.symm
      simp [hnil] at hd
    | some root =>
      obtain ⟨m, hbuild, hsections⟩ := jobDrafts_eq_ok hroot hdrafts
      obtain ⟨x, hx, hof⟩ := exists_left_of_mem (forall₂_sectionDrafts hsections) hd
      obtain ⟨entry, hentry, hx⟩ := List.mem_flatMap.mp hx
      have hmem := mem_roots_of_jobRoot? hroot
      have hbound := BoundTree.of_forest hf hmem .refl hbuild
      have hinside := hbound.encloses.mem hbound.root_mem
        ((Scope.steps_of_mem_getD_mappingEntries? hentry).trans (Scope.steps_of_mem_sectionsOf hx))
      rw [hof.entry]
      exact ⟨root, hmem, (File.mem_preorder_iff hf.acyclic hf.closed hbound.lt_size).mp hinside⟩

theorem exists_entries_of_annotatedBlocks {f : File} (hf : f.Forest) {shell : String}
    {names rest : BlockNames} {blocks : List Block}
    (h : annotatedBlocks f shell covered names = .ok (blocks, rest)) :
    ∃ entries, BlocksOf entries blocks ∧ entries.Nodup ∧
      entries.Sublist (f.roots.flatMap f.preorder) ∧
      ∀ e, e ∈ entries ↔ ∃ s, Scope.IsOf f s ∧ s.IsOutermost covered entries e := by
  obtain ⟨drafts, hdrafts, hblocks⟩ := map_eq_ok.mp h
  have hof := blocksOf_blocksOfAll (f := f) shell names
    (fragments_ne_nil_of_annotatedDrafts hdrafts)
  rw [hblocks] at hof
  have hsublist := entries_sublist_annotatedDrafts hdrafts
  exact ⟨drafts.map (·.entry), hof, hf.nodup.sublist hsublist, hsublist,
    mem_entries_iff_isOutermost hf fun _ => mem_entries_annotatedDrafts hdrafts⟩

/-- An entry from the second pass is none that a job has, and none below an entry from either. -/
theorem not_below_of_mem_annotatedBlocks {f : File} (hf : f.Forest) {shell : String}
    {names names' rest : BlockNames} {jobs annotated : List Block}
    (hjobs : jobBlocks f shell names = .ok (jobs, names'))
    (h : annotatedBlocks f shell (jobs.filterMap (·.entry)) names' = .ok (annotated, rest))
    {b : Block} (hb : b ∈ annotated) : ∃ e, b.entry = some e ∧
      (∀ b' ∈ jobs, b'.entry ≠ some e) ∧
      ∀ b' ∈ jobs ++ annotated, ∀ a, b'.entry = some a → ¬ TransGen f.Below a e := by
  obtain ⟨entries, hof, -, -, hentries⟩ := exists_entries_of_annotatedBlocks hf h
  obtain ⟨e, he, hbe⟩ := hof.exists_entry hb
  obtain ⟨s, hs, hout⟩ := (hentries e).mp he
  have hcovered : ∀ b' ∈ jobs, ∀ a, b'.entry = some a → a ∈ jobs.filterMap (·.entry) :=
    fun b' hb' a ha => List.mem_filterMap.mpr ⟨b', hb', ha⟩
  have hreached : ReflTransGen f.Below s.root e := hs.file ▸ File.below_of_walksTo hout.walked
  have habove : ∀ {a root : NodeId}, f.IsEntry a → root ∈ f.roots → ReflTransGen f.Below root a →
      TransGen f.Below a e → a ∉ jobs.filterMap (·.entry) ∧ a ∉ entries := by
    intro a root hentry hroot ha hae
    cases hf.root_unique hroot hs.root_mem (ha.trans hae.to_reflTransGen) hreached
    exact hout.above a (hs.file ▸ hentry) (hs.file ▸ ha) (hs.file ▸ hae)
  refine ⟨e, hbe, fun b' hb' ha => hout.not_covered (hcovered b' hb' e ha), ?_⟩
  intro b' hb' a ha hae
  rcases List.mem_append.mp hb' with hb' | hb'
  · obtain ⟨a', ha', hentry, root, hroot, hin⟩ := exists_root_of_mem_jobBlocks hf hjobs hb'
    cases ha.symm.trans ha'
    exact (habove hentry hroot hin hae).1 (hcovered b' hb' a ha)
  · obtain ⟨a', hmem, ha'⟩ := hof.exists_entry hb'
    cases ha.symm.trans ha'
    obtain ⟨t, ht, ha⟩ := (hentries a).mp hmem
    refine (habove (ht.file ▸ ha.holdsScript.isEntry) ht.root_mem ?_ hae).2 hmem
    exact ht.file ▸ File.below_of_walksTo ha.walked

/-- The pass over annotated entries extracts the outermost of them, each once and in the order of
the documents. So a file has no entry with blocks from both passes, and what stands below an entry
with blocks is not extracted as an annotated entry. Every file from the reader is a forest. -/
theorem annotated_entries_are_outermost {f : File} (hf : f.Forest) (shell : String) :
    (∀ covered names blocks rest, annotatedBlocks f shell covered names = .ok (blocks, rest) →
      ∃ entries, BlocksOf entries blocks ∧ entries.Nodup ∧
        entries.Sublist (f.roots.flatMap f.preorder) ∧
        ∀ e, e ∈ entries ↔ ∃ s, Scope.IsOf f s ∧ s.IsOutermost covered entries e) ∧
    ∀ blocks, decode f shell = .ok blocks → ∃ jobs annotated names rest,
      blocks = jobs ++ annotated ∧ jobBlocks f shell {} = .ok (jobs, names) ∧
      annotatedBlocks f shell (jobs.filterMap (·.entry)) names = .ok (annotated, rest) ∧
      ∀ b ∈ annotated, ∃ e, b.entry = some e ∧ (∀ b' ∈ jobs, b'.entry ≠ some e) ∧
        ∀ b' ∈ jobs ++ annotated, ∀ a, b'.entry = some a → ¬ TransGen f.Below a e := by
  refine ⟨fun covered names blocks rest h => exists_entries_of_annotatedBlocks hf h, ?_⟩
  intro blocks h
  obtain ⟨⟨jobs, names⟩, hjobs, h⟩ := bind_eq_ok.mp h
  obtain ⟨⟨annotated, rest⟩, hannotated, h⟩ := bind_eq_ok.mp h
  cases h
  exact ⟨jobs, annotated, names, rest, rfl, hjobs, hannotated,
    fun b hb => not_below_of_mem_annotatedBlocks hf hjobs hannotated hb⟩

/-- A job with an annotated script, and with an annotated mapping, which is no script. In it there
is a script that is annotated, too, with another one below it. -/
def nestedPipeline : String :=
  "job:\n  # scriptcheck\n  script: a\n  # scriptcheck\n  x:\n    # scriptcheck\n    y:\n" ++
    "    - b\n    # scriptcheck\n    - z: c\n    - d\n"

/-- The blocks of `nestedPipeline`, with their entries. -/
def nestedBlocks : List (String × Option NodeId) :=
  [("a", some 3), ("b", some 13), ("d", some 13)]

theorem nestedPipeline_outermost :
    ∃ f blocks jobs annotated entries, File.parse "ci.yml" nestedPipeline = .ok f ∧
      decode f "" = .ok blocks ∧ blocks.map (fun b => (b.script, b.entry)) = nestedBlocks ∧
      blocks = jobs ++ annotated ∧ BlocksOf entries annotated ∧ entries.Nodup ∧
      ∀ e, e ∈ entries ↔
        ∃ s, Scope.IsOf f s ∧ s.IsOutermost (jobs.filterMap (·.entry)) entries e := by
  have hrun : ((File.parse "ci.yml" nestedPipeline).toOption.bind fun f =>
      (decode f "").toOption.map fun blocks => blocks.map fun b => (b.script, b.entry)) =
      some nestedBlocks := by
    decide +kernel
  obtain ⟨f, hparse, hrun⟩ := Option.bind_eq_some_iff.mp hrun
  obtain ⟨blocks, hblocks, hentries⟩ := Option.map_eq_some_iff.mp hrun
  have hf : f.Forest := File.FromReader.forest (.alone (toOption_eq_some.mp hparse))
  obtain ⟨hannotated, hdecode⟩ := annotated_entries_are_outermost hf ""
  obtain ⟨jobs, annotated, names, rest, heq, -, hrun, -⟩ :=
    hdecode blocks (toOption_eq_some.mp hblocks)
  obtain ⟨entries, hof, hnodup, -, hout⟩ := hannotated _ names annotated rest hrun
  exact ⟨f, blocks, jobs, annotated, entries, toOption_eq_some.mp hparse,
    toOption_eq_some.mp hblocks, hentries, heq, hof, hnodup, hout⟩

end PipelineScripts.Script
