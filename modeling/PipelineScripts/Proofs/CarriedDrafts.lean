import PipelineScripts.Proofs.Blocks
import PipelineScripts.Proofs.CarriedScope
import PipelineScripts.Proofs.CopiedJobs

/-!
# Drafts inside larger files

The jobs of a document and its annotated entries are found in a larger file, too, with the same
sections in the same order and the same fragments.
-/
namespace PipelineScripts.Script

open Yaml

/-- All that is told of a block but its name. -/
structure Content where
  file : String
  script : String
  shell : String
  path : String
  startLine : Nat
  directive : Option Directive
deriving DecidableEq, Repr

def Block.content (b : Block) : Content :=
  ⟨b.file, b.script, b.shell, b.path, b.startLine, b.directive⟩

/-- What the blocks of a draft hold, whatever their names. -/
def Draft.contents (f : File) (shell : String) (d : Draft) : List Content :=
  d.fragments.map fun x => (d.block f shell x "").content

/-- The entry of a draft, once for each block. -/
def Draft.entries (d : Draft) : List NodeId := d.fragments.map fun _ => d.entry

/-- What blocks have of their draft does not depend on the names that are free. -/
theorem Draft.map_blocks {α : Type} (f : File) (shell : String) (names : BlockNames) (d : Draft)
    (g : Block → α) (hg : ∀ x name, g (d.block f shell x name) = g (d.block f shell x "")) :
    (d.blocks f shell names).1.map g = d.fragments.map fun x => g (d.block f shell x "") := by
  have hblocks := d.forall₂_blocks f shell names
  generalize (d.blocks f shell names).1 = blocks at hblocks
  generalize d.fragments = fragments at hblocks
  induction hblocks with
  | nil => rfl
  | @cons x b fragments blocks hb _ ih =>
    obtain ⟨name, rfl⟩ := hb
    rw [List.map_cons, List.map_cons, hg, ih]

theorem Draft.map_blocksOfAll {α : Type} (f : File) (shell : String) (names : BlockNames)
    (drafts : List Draft) (g : Block → α)
    (hg : ∀ d x name, g (Draft.block f shell d x name) = g (d.block f shell x "")) :
    (Draft.blocksOfAll f shell names drafts).1.map g =
      drafts.flatMap fun d => d.fragments.map fun x => g (d.block f shell x "") := by
  induction drafts generalizing names with
  | nil => rfl
  | cons d rest ih =>
    rw [Draft.blocksOfAll, List.map_append, Draft.map_blocks f shell names d g (hg d), ih,
      List.flatMap_cons]

theorem Draft.contents_blocksOfAll (f : File) (shell : String) (names : BlockNames)
    (drafts : List Draft) : (Draft.blocksOfAll f shell names drafts).1.map Block.content =
      drafts.flatMap (Draft.contents f shell) :=
  Draft.map_blocksOfAll f shell names drafts Block.content fun _ _ _ => rfl

theorem Draft.entries_blocksOfAll (f : File) (shell : String) (names : BlockNames)
    (drafts : List Draft) : (Draft.blocksOfAll f shell names drafts).1.filterMap (·.entry) =
      drafts.flatMap Draft.entries := by
  have hmap := Draft.map_blocksOfAll f shell names drafts (·.entry) fun _ _ _ => rfl
  have hid : ∀ l : List Block, l.filterMap (·.entry) = (l.map (·.entry)).filterMap id := by
    intro l
    simp [List.filterMap_map]
  rw [hid, hmap, List.filterMap_flatMap]
  refine List.flatMap_congr fun d _ => ?_
  simp [Draft.entries, Draft.block, Function.comp_def]

/-- A draft of a file that was put behind `offset` nodes of `source` sources. -/
def Draft.moved (offset source : Nat) (d : Draft) : Draft :=
  { d with entry := d.entry + offset, fragments := d.fragments.map (Fragment.moved source) }

theorem Draft.entries_moved (offset source : Nat) (d : Draft) :
    (d.moved offset source).entries = d.entries.map (· + offset) := by
  rw [Draft.entries, Draft.moved, List.map_map, Draft.entries, List.map_map]
  rfl

namespace Scope.CarriedTo

variable {s S : Scope} {offset source : Nat} {id : Nat}

/-- The drafts of the jobs at some entries are the same. -/
theorem sectionDrafts (h : s.CarriedTo S offset source) (hS : S.file.Acyclic)
    {entries : List NodeId} (hentries : ∀ entry ∈ entries, entry < s.root) {drafts : List Draft}
    (hout : sectionDrafts s entries = .ok drafts) :
    sectionDrafts S (entries.map (· + offset)) = .ok (drafts.map (Draft.moved offset source)) ∧
      ∀ d ∈ drafts, d.entry < s.root := by
  have hsections := (h.mirrors hS).sectionDrafts hentries
  rw [hout] at hsections
  exact ⟨hsections, fun d hd => (h.copies hS).mem_of_mem_sectionDrafts hentries hout hd⟩

/-! ### Annotated entries -/

/-- The entries that were extracted are the same. -/
def CarriesCovered (s : Scope) (offset : Nat) (covered covered' : List NodeId) : Prop :=
  ∀ x : Nat, x < s.root → (x + offset ∈ covered' ↔ x ∈ covered)

theorem annotatedWithin (h : s.CarriedTo S offset source) (hS : S.file.Acyclic)
    {covered covered' : List NodeId} (hcovered : CarriesCovered s offset covered covered')
    {depth depth' : Nat} (hdepth : depth ≤ depth') (hid : id < s.root) {drafts : List Draft}
    (hout : annotatedWithin s covered depth id = .ok drafts) :
    annotatedWithin S covered' depth' (id + offset) =
        .ok (drafts.map (Draft.moved offset source)) ∧
      ∀ d ∈ drafts, d.entry < s.root := by
  induction depth generalizing depth' id drafts with
  | zero => cases hout
  | succ depth ih =>
    obtain ⟨depth', rfl⟩ : ∃ n, depth' = n + 1 := ⟨depth' - 1, by omega⟩
    have hdown : depth ≤ depth' := by omega
    have hall : ∀ {ids : List NodeId}, (∀ x ∈ ids, x < s.root) → ∀ {drafts : List Draft},
        concatResults (Script.annotatedWithin s covered depth) ids = .ok drafts →
        concatResults (Script.annotatedWithin S covered' depth') (ids.map (· + offset)) =
            .ok (drafts.map (Draft.moved offset source)) ∧
          ∀ d ∈ drafts, d.entry < s.root := by
      intro ids hids drafts hout
      refine ⟨concatResults_map (fun x hx part hpart => (ih hdown (hids x hx) hpart).1) hout, ?_⟩
      intro d hd
      obtain ⟨x, hx, part, hpart, hd⟩ := exists_of_mem_concatResults hout hd
      exact (ih hdown (hids x hx) hpart).2 d hd
    rw [Script.annotatedWithin] at hout ⊢
    rw [(h.copies hS).kind? hid]
    cases hk : s.file.kind? id with
    | none =>
      rw [hk] at hout
      cases hout
      simp
    | some k =>
      have hchild : ∀ child : Nat, child ∈ k.children → child < s.root := fun child hchild =>
        (h.copies hS).child_mem_of_kind? hid hk hchild
      rw [hk] at hout
      cases k with
      | mapping entries => exact hall (fun x hx => hchild x hx) hout
      | sequence items comments => exact hall (fun x hx => hchild x hx) hout
      | anchor name value => exact ih hdown (hchild value (by simp [NodeKind.children])) hout
      | tagged tag value => exact ih hdown (hchild value (by simp [NodeKind.children])) hout
      | entry key value comments =>
        have hvalue := hchild value (by simp [NodeKind.children])
        simp only [Option.map_some, NodeKind.mapChildren, List.contains_iff_mem,
          hcovered id hid] at hout ⊢
        split_ifs at hout ⊢
        · cases hout
          simp
        · exact ih hdown hvalue hout
        · rw [(h.mirrors hS).expand hvalue]
          cases hexpand : s.expand value with
          | error e => simp [hexpand] at hout
          | ok fragments =>
            cases fragments with
            | nil =>
              simp only [hexpand] at hout
              exact ih hdown hvalue hout
            | cons first others =>
              simp only [hexpand] at hout
              cases hout
              simp [Except.map, Draft.moved, (h.copies hS).entryKey? hid, hid]
      | scalar _ _ | block _ _ _ | aliasOf _ =>
        cases hout
        simp [NodeKind.mapChildren]

/-! ### Blocks -/

/-- A draft makes the same blocks, but for their names. -/
theorem contents_moved (h : s.CarriedTo S offset source) (hS : S.file.Acyclic) {d : Draft}
    (hentry : d.entry < s.root)
    (hsources : ∀ x ∈ d.fragments,
      S.file.sourceName (x.source + source) = s.file.sourceName x.source) (shell : String) :
    (d.moved offset source).contents S.file shell = d.contents s.file shell := by
  unfold Draft.contents
  rw [show (d.moved offset source).fragments = d.fragments.map (Fragment.moved source) from rfl,
    List.map_map]
  refine List.map_congr_left fun x hx => ?_
  show ((d.renamed (· + offset) source).block S.file shell (x.moved source) "").content = _
  rw [(h.copies hS).block hentry (hsources x hx)]
  rfl

end Scope.CarriedTo

end PipelineScripts.Script
