import PipelineScripts.Proofs.OutputPlaces

/-!
# Files below the output directory

Whatever the pipeline file and the block are called, the path name of a generated file goes on from
the output directory with names alone. The last of them is that of a shell script: the output name
ends in `.sh`, and a segment that ends so is a name.
-/
namespace PipelineScripts.Path

open Text

/-! ### Components of what is appended -/

/-- Names do not start with the `.` that would be a component in front. -/
theorem AreNames.head?_ne {l : List (List Char)} (h : AreNames l) : l.head? ≠ some ['.'] := by
  intro hhead
  obtain ⟨-, hdot, -⟩ := isName_iff.mp (h.isName ['.'] (List.mem_of_head? hhead))
  exact hdot rfl

theorem leading_append_slash (before path : List Char) :
    leading (before ++ '/' :: path) = if before = [] then [.root] else leading before := by
  cases before with
  | nil => rfl
  | cons c r =>
    have habsolute : isAbsolute (c :: r ++ '/' :: path) = isAbsolute (c :: r) := rfl
    have hhead : (segments (c :: r ++ '/' :: path)).head? = (segments (c :: r)).head? := by
      rw [segments_append_slash]
      exact List.head?_append_of_ne_nil _ (split_ne_nil _ _)
    rw [if_neg (List.cons_ne_nil c r), leading, leading, habsolute, hhead]

/-- A relative path name adds its components to those of the path name it is appended to. A `.` in
front of it would be one on its own only. -/
theorem components_append {path : List Char} (base : List Char)
    (hrelative : isAbsolute path = false)
    (hcurrent : (segments path).head? ≠ some ['.']) :
    components (append base path) = components base ++ components path := by
  by_cases hbase : base = []
  · subst hbase
    have hnil : components [] = [] := rfl
    have happend : append [] path = path := by simp [append]
    rw [happend, hnil, List.nil_append]
  · obtain ⟨before, hbefore, happend⟩ := exists_append_eq hbase
    have hleading : leading (before ++ '/' :: path) = leading base := by
      rw [leading_append_slash]
      rcases hbefore with rfl | rfl
      · rw [if_neg hbase]
      · rw [leading_append_slash]
    have hsegments : (segments base).filterMap segmentComponent? =
        (segments before).filterMap segmentComponent? := by
      rcases hbefore with rfl | rfl
      · rfl
      · rw [segments_append_slash]
        simp [segments, split, segmentComponent?]
    have hpath : leading path = [] := by simp [leading, hrelative, hcurrent]
    rw [happend path hrelative, components, components, components, hleading, hsegments, hpath,
      segments_append_slash, List.filterMap_append, List.nil_append, List.append_assoc]

/-- Joined names have themselves as components. -/
theorem components_join {l : List (List Char)} (hne : l ≠ []) (h : AreNames l) :
    components (join ['/'] l) = l.map .normal := by
  have hleading : leading (join ['/'] l) = [] := by
    simp [leading, not_isAbsolute_join h, segments_join hne h, h.head?_ne]
  have hnormal : ∀ name ∈ l, segmentComponent? name = some (.normal name) := h.isName
  rw [components, hleading, segments_join hne h, List.nil_append, List.filterMap_congr hnormal,
    List.filterMap_eq_map']

end PipelineScripts.Path

namespace PipelineScripts.Script.Block

open PipelineScripts.Path Text

/-- The path name of a generated file is the output directory and names below it, whatever the
pipeline file and the block are called. The file itself is a shell script. -/
theorem target_below_root (b : Block) (root : String) : ∃ directories file,
    components (b.target root).toList =
      components root.toList ++ (directories ++ [file]).map .normal ∧
    ".sh".toList <:+ file ∧
    ∀ name ∈ directories ++ [file], name ≠ [] ∧ name ≠ ['.'] ∧ name ≠ ['.', '.'] ∧ '/' ∉ name := by
  obtain ⟨directories, stem, hplace⟩ := b.exists_place_eq
  have hnames : AreNames b.place := areNames_names _
  have hcurrent : (segments (join ['/'] b.place)).head? ≠ some ['.'] := by
    rw [segments_join b.place_ne_nil hnames]
    exact hnames.head?_ne
  refine ⟨directories, stem ++ ".sh".toList, ?_, List.suffix_append _ _, fun name hname => ?_⟩
  · rw [toList_target, components_append _ (not_isAbsolute_join hnames) hcurrent,
      components_join b.place_ne_nil hnames, hplace]
  · rw [← hplace] at hname
    obtain ⟨hempty, hdot, hparent⟩ := isName_iff.mp (hnames.isName name hname)
    exact ⟨hempty, hdot, hparent, hnames.noSlash name hname⟩

end PipelineScripts.Script.Block
