import PipelineScripts.Proofs.SourceLines
import PipelineScripts.Proofs.TreeWrites
import PipelineScripts.Script.Block

/-!
# Where scripts are written

The path name a block is written to is made of the output directory and of the names among the
components of the block's output name. Two blocks are written to one path name exactly if these
names are the same.
-/
namespace PipelineScripts.Path

open Text

/-- A segment that names a file or a directory. -/
def IsName (segment : List Char) : Prop := segmentComponent? segment = some (.normal segment)

instance : DecidablePred IsName :=
  fun segment => inferInstanceAs (Decidable (segmentComponent? segment = _))

theorem segmentComponent?_eq_normal {segment name : List Char} :
    segmentComponent? segment = some (.normal name) ↔ IsName segment ∧ name = segment := by
  unfold IsName segmentComponent?
  split_ifs <;> simp [eq_comm]

theorem isName_iff {segment : List Char} :
    IsName segment ↔ segment ≠ [] ∧ segment ≠ ['.'] ∧ segment ≠ ['.', '.'] := by
  unfold IsName segmentComponent?
  split_ifs with hempty hparent
  · simp only [Bool.or_eq_true, decide_eq_true_eq] at hempty
    rcases hempty with rfl | rfl <;> simp
  · simp [hparent]
  · simp only [Bool.or_eq_true, decide_eq_true_eq, not_or] at hempty
    simp [hempty, hparent]

theorem isName_of_mem {segment : List Char} {c : Char} (hc : c ≠ '.') (h : c ∈ segment) :
    IsName segment := by
  refine isName_iff.mpr ⟨List.ne_nil_of_mem h, ?_, ?_⟩
  all_goals
    rintro rfl
    simp [hc] at h

theorem IsName.ne_nil {segment : List Char} (h : IsName segment) :
    segment ≠ [] := (isName_iff.mp h).1

/-- The names among the segments of a path name. -/
def names (path : List Char) : List (List Char) := (segments path).filter (IsName ·)

theorem slash_not_mem_of_mem_segments {path segment : List Char} (h : segment ∈ segments path) :
    '/' ∉ segment := by
  intro hslash
  simpa using (mem_of_mem_split h hslash).2

/-- Names as they stand between slashes. -/
structure AreNames (l : List (List Char)) : Prop where
  isName : ∀ name ∈ l, IsName name
  noSlash : ∀ name ∈ l, '/' ∉ name

theorem areNames_names (path : List Char) : AreNames (names path) where
  isName name h := by simpa using (List.mem_filter.mp h).2
  noSlash name h := slash_not_mem_of_mem_segments (List.mem_filter.mp h).1

theorem AreNames.of_append {l m : List (List Char)} (h : AreNames (l ++ m)) : AreNames l :=
  ⟨fun x hx => h.isName x (List.mem_append_left m hx),
    fun x hx => h.noSlash x (List.mem_append_left m hx)⟩

theorem not_isAbsolute_of_not_mem {path : List Char} (h : '/' ∉ path) :
    isAbsolute path = false := by
  cases path with
  | nil => rfl
  | cons c r =>
    have hc : c ≠ '/' := fun heq => h (heq ▸ List.mem_cons_self)
    simpa [isAbsolute] using hc

/-! ### Joining names -/

/-- Joined names do not end in a slash, so that one is put in front of the next name. -/
theorem append_join {l : List (List Char)} {name : List Char} (h : AreNames (l ++ [name])) :
    append (join ['/'] l) name = join ['/'] (l ++ [name]) := by
  have habsolute : isAbsolute name = false := not_isAbsolute_of_not_mem (h.noSlash name (by simp))
  rcases List.eq_nil_or_concat l with rfl | ⟨before, last, rfl⟩
  · simp [append, habsolute, join]
  · rw [List.concat_eq_append] at *
    have hlast := h.of_append
    obtain ⟨front, c, hc⟩ : ∃ front c, last = front ++ [c] := by
      have hne := (hlast.isName last (by simp)).ne_nil
      exact ⟨_, _, (List.dropLast_append_getLast hne).symm⟩
    have hslash : c ≠ '/' := by
      rintro rfl
      exact hlast.noSlash last (by simp) (by simp [hc])
    obtain ⟨text, htext⟩ : ∃ text, join ['/'] (before ++ [last]) = text ++ [c] := by
      cases hbefore : before with
      | nil => exact ⟨front, by simp [join, hc]⟩
      | cons x more =>
        rw [← hbefore, join_concat _ (by simp [hbefore]), hc]
        exact ⟨join ['/'] before ++ '/' :: front, by simp⟩
    have hjoin : join ['/'] (before ++ [last] ++ [name]) =
        join ['/'] (before ++ [last]) ++ '/' :: name := join_concat ['/'] (by simp) name
    rw [hjoin, append, htext]
    simp [habsolute, hslash]

theorem foldl_append {done rest : List (List Char)} (h : AreNames (done ++ rest)) :
    rest.foldl append (join ['/'] done) = join ['/'] (done ++ rest) := by
  induction rest generalizing done with
  | nil => simp
  | cons name rest ih =>
    rw [List.append_cons] at h ⊢
    rw [List.foldl_cons, append_join h.of_append, ih h]

/-- The name that a component is, if it is one. -/
def Component.name? : Component → Option (List Char)
  | normal name => some name
  | _ => none

theorem filterMap_name?_components (path : List Char) :
    (components path).filterMap Component.name? = names path := by
  have hleading : (leading path).filterMap Component.name? = [] := by
    unfold leading
    split_ifs <;> rfl
  rw [components, List.filterMap_append, hleading, List.nil_append, List.filterMap_filterMap,
    names, ← List.filterMap_eq_filter]
  refine List.filterMap_congr fun segment _ => ?_
  by_cases hname : IsName segment
  · have hsegment : segmentComponent? segment = some (.normal segment) := hname
    simp [hsegment, hname, Option.guard, Component.name?]
  · have hother : ∀ name, segmentComponent? segment ≠ some (.normal name) :=
      fun name h => hname (segmentComponent?_eq_normal.mp h).1
    rcases hsegment : segmentComponent? segment with _ | _ | _ | _ | name
    all_goals simp_all [Option.guard, Component.name?]

/-- The relative part of a path name is made of its names. -/
theorem normalPart_eq (path : List Char) : normalPart path = join ['/'] (names path) := by
  have hfold : normalPart path = ((components path).filterMap Component.name?).foldl append [] :=
    rfl
  rw [hfold, filterMap_name?_components]
  have hnames : AreNames ([] ++ names path) := areNames_names path
  exact foldl_append hnames

/-- Joined names are found again. -/
theorem segments_join {l : List (List Char)} (hne : l ≠ []) (h : AreNames l) :
    segments (join ['/'] l) = l :=
  split_join hne h.noSlash

theorem not_isAbsolute_join {l : List (List Char)} (h : AreNames l) :
    isAbsolute (join ['/'] l) = false := by
  cases l with
  | nil => rfl
  | cons name rest =>
    have hne := (h.isName name (by simp)).ne_nil
    have hslash := h.noSlash name (by simp)
    cases name with
    | nil => exact absurd rfl hne
    | cons c r =>
      have hc : c ≠ '/' := fun heq => hslash (heq ▸ List.mem_cons_self)
      cases rest <;> simpa [isAbsolute, join] using hc

/-- A path name is set off by one slash from the relative one that is appended to it. A slash at its
end is this one. -/
theorem exists_append_eq {base : List Char} (hbase : base ≠ []) : ∃ before,
    (base = before ∨ base = before ++ ['/']) ∧
      ∀ path, isAbsolute path = false → append base path = before ++ '/' :: path := by
  obtain ⟨before, last, rfl⟩ : ∃ before last, base = before ++ [last] :=
    ⟨_, _, (List.dropLast_append_getLast hbase).symm⟩
  by_cases hlast : last = '/'
  · subst hlast
    exact ⟨before, .inr rfl, fun path h => by simp [append, h]⟩
  · exact ⟨before ++ [last], .inl rfl, fun path h => by simp [append, h, hlast]⟩

theorem segments_append_slash (before path : List Char) :
    segments (before ++ '/' :: path) = segments before ++ segments path :=
  split_append_cons (by simp) before path

/-- What is appended to a path name follows the same segments, whatever it is: those of that path
name, but for an empty one at the end. -/
theorem exists_segments_append (base : List Char) : ∃ front : List (List Char),
    (segments base = front ∨ segments base = front ++ [[]]) ∧
      ∀ path, isAbsolute path = false → segments (append base path) = front ++ segments path := by
  by_cases hbase : base = []
  · subst hbase
    exact ⟨[], .inr rfl, fun path h => by simp [append, h]⟩
  · obtain ⟨before, hbefore, happend⟩ := exists_append_eq hbase
    refine ⟨segments before, ?_, fun path h => ?_⟩
    · rcases hbefore with rfl | rfl
      · exact .inl rfl
      · exact .inr (segments_append_slash before [])
    · rw [happend path h, segments_append_slash]

/-- The names of a relative path name are added to those of the path name before it. -/
theorem names_append {path : List Char} (base : List Char) (h : isAbsolute path = false) :
    names (append base path) = names base ++ names path := by
  obtain ⟨front, hfront, happend⟩ := exists_segments_append base
  rw [names, names, happend path h, List.filter_append]
  rcases hfront with hsegments | hsegments
  · rw [hsegments, names]
  · rw [hsegments, names, List.filter_append]
    simp [IsName, segmentComponent?]

/-! ### The end of a path name -/

/-- What is put behind a path name without a slash ends its last segment. -/
theorem exists_segments_append_suffix (path suffix : List Char) (h : '/' ∉ suffix) :
    ∃ before last, segments (path ++ suffix) = before ++ [last ++ suffix] := by
  induction path with
  | nil => exact ⟨[], [], split_of_forall fun c hc => beq_false_of_ne fun heq => h (heq ▸ hc)⟩
  | cons c r ih =>
    obtain ⟨before, last, hsegments⟩ := ih
    have hcons : segments (c :: r ++ suffix) =
        if c == '/' then [] :: segments (r ++ suffix)
        else consFirst c (segments (r ++ suffix)) := rfl
    rw [hcons, hsegments]
    split_ifs
    · exact ⟨[] :: before, last, rfl⟩
    · cases before with
      | nil => exact ⟨[], c :: last, rfl⟩
      | cons first before => exact ⟨(c :: first) :: before, last, rfl⟩

theorem exists_append_suffix (base path : List Char) :
    ∃ front, append base path = front ++ path := by
  unfold append
  split_ifs
  · exact ⟨[], rfl⟩
  · exact ⟨base, rfl⟩
  · exact ⟨base ++ ['/'], by simp⟩

/-! ### Names of files -/

theorem mem_segments_of_fileName? {path name : List Char} (h : fileName? path = some name) :
    name ∈ segments path ∧ IsName name := by
  unfold fileName? at h
  split at h
  next last hlast =>
    cases h
    have hmem := List.mem_of_getLast? hlast
    rcases List.mem_append.mp hmem with hmem | hmem
    · unfold leading at hmem
      split_ifs at hmem <;> simp at hmem
    · obtain ⟨segment, hsegment, hcomponent⟩ := List.mem_filterMap.mp hmem
      obtain ⟨hname, rfl⟩ := segmentComponent?_eq_normal.mp hcomponent
      exact ⟨hsegment, hname⟩
  next => cases h

theorem fileName?_of_segments {path last : List Char} {before : List (List Char)}
    (h : segments path = before ++ [last]) (hlast : IsName last) : fileName? path = some last := by
  have hcomponent : segmentComponent? last = some (.normal last) := hlast
  simp [fileName?, components, h, hcomponent]

theorem mem_of_mem_splitExtension {name : List Char} {c : Char}
    (h : c ∈ (splitExtension name).1) : c ∈ name := by
  unfold splitExtension at h
  split at h
  next => exact h
  next stem extension hsplit =>
    obtain ⟨⟨a, b⟩, hab, heq⟩ := Option.map_eq_some_iff.mp hsplit
    simp only [Prod.mk.injEq] at heq
    rw [← heq.1, List.mem_reverse] at h
    exact List.mem_reverse.mp (mem_of_splitOnce? hab h)
  next => exact h

end PipelineScripts.Path

namespace PipelineScripts.Files.Tree

open PipelineScripts.Path

/-- A file that can be read has a name. -/
theorem exists_fileName?_of_read? {t : Tree} {path : List Char} {c : String}
    (h : t.read? path = some c) : ∃ name, fileName? path = some name := by
  obtain ⟨-, place, hplace, hc⟩ := read?_eq_some.mp h
  have hfile : t.hasDirectory place = false := by simp [hasDirectory, hc, isDirectory]
  rcases List.eq_nil_or_concat (segments path) with hnil | ⟨before, last, hsegments⟩
  · exact absurd hnil (Text.split_ne_nil _ path)
  · rw [List.concat_eq_append] at hsegments
    rw [hsegments, List.foldlM_append] at hplace
    obtain ⟨mid, -, hlast⟩ := Option.bind_eq_some_iff.mp hplace
    obtain ⟨last', hfollow, heq⟩ := Option.bind_eq_some_iff.mp hlast
    cases heq
    obtain ⟨hmid, hstep, -⟩ := follow?_eq_some.mp hfollow
    refine ⟨last, fileName?_of_segments hsegments ?_⟩
    -- Every other segment stays among directories.
    have hdirectory : ∀ p, p <+: mid → p ≠ place := by
      rintro p hp rfl
      simp [hasDirectory_above hp hmid] at hfile
    unfold step? at hstep
    split at hstep
    next name hname => exact (segmentComponent?_eq_normal.mp hname).1
    next => exact absurd rfl (hdirectory _ (prefix_of_parentPlace? hstep))
    next => exact absurd (Option.some.inj hstep) (hdirectory _ List.prefix_rfl)

/-- Names lead straight down. -/
theorem foldlM_step?_of_areNames {l : List (List Char)} (h : ∀ name ∈ l, IsName name)
    (place : List Name) : l.foldlM step? place = some (place ++ l) := by
  induction l generalizing place with
  | nil => simp
  | cons name rest ih =>
    have hname : segmentComponent? name = some (.normal name) := h name (by simp)
    have hstep : step? place name = some (place ++ [name]) := by simp [step?, hname]
    rw [List.foldlM_cons, hstep, Option.bind_eq_bind, Option.bind_some,
      ih fun x hx => h x (List.mem_cons_of_mem name hx), List.append_assoc, List.singleton_append]

end PipelineScripts.Files.Tree

namespace PipelineScripts.Script.Block

open PipelineScripts.Path Files Text

/-- The names that lead to the generated file, from the output directory on. -/
def place (b : Block) : List (List Char) := names b.outputName.toList

theorem exists_outputName_eq (b : Block) :
    ∃ front, b.outputName.toList = front ++ ".sh".toList := by
  unfold outputName
  dsimp only
  split
  · exact ⟨_, String.toList_ofList⟩
  · exact ⟨_, String.toList_ofList⟩
  next dir _ _ =>
    rw [String.toList_ofList]
    obtain ⟨front, hfront⟩ := exists_append_suffix dir
      ((stem? b.file.toList).getD b.file.toList ++ '-' :: b.name.toList ++ ".sh".toList)
    exact ⟨_, hfront.trans (List.append_assoc _ _ _).symm⟩

/-- A generated file has a place, and its name there is that of a shell script. -/
theorem exists_place_eq (b : Block) : ∃ directories stem,
    b.place = directories ++ [stem ++ ".sh".toList] := by
  obtain ⟨front, hfront⟩ := b.exists_outputName_eq
  obtain ⟨before, last, hsegments⟩ :=
    exists_segments_append_suffix front ".sh".toList (by simp)
  have hname : IsName (last ++ ".sh".toList) :=
    isName_of_mem (c := 'h') (by decide) (by simp)
  refine ⟨before.filter (IsName ·), last, ?_⟩
  rw [place, names, hfront, hsegments, List.filter_append, List.filter_singleton,
    decide_eq_true hname, cond_true]

theorem place_ne_nil (b : Block) : b.place ≠ [] := by
  obtain ⟨directories, stem, hplace⟩ := b.exists_place_eq
  simp [hplace]

theorem toList_target (b : Block) (root : String) :
    (b.target root).toList = append root.toList (join ['/'] b.place) := by
  rw [target, String.toList_ofList, normalPart_eq, place]

/-- The path names that blocks are written to differ in their places only. -/
theorem exists_segments_target (root : String) : ∃ front : List (List Char), ∀ b : Block,
    segments (b.target root).toList = front ++ b.place := by
  obtain ⟨front, -, hfront⟩ := exists_segments_append root.toList
  refine ⟨front, fun b => ?_⟩
  have hnames : AreNames b.place := areNames_names _
  rw [toList_target, hfront _ (not_isAbsolute_join hnames), segments_join b.place_ne_nil hnames]

theorem target_eq_iff (root : String) (a b : Block) :
    a.target root = b.target root ↔ a.place = b.place := by
  constructor
  · intro h
    obtain ⟨front, hfront⟩ := exists_segments_target root
    have heq := hfront a
    rw [h, hfront b] at heq
    exact (List.append_cancel_left heq).symm
  · intro h
    rw [← String.toList_inj, toList_target, toList_target, h]

/-- A generated file is found below the output directory, at its place. -/
theorem foldlM_step?_target (b : Block) (root : String) :
    (segments (b.target root).toList).foldlM Tree.step? [] =
      ((segments root.toList).foldlM Tree.step? []).map (· ++ b.place) := by
  obtain ⟨front, hroot, hfront⟩ := exists_segments_append root.toList
  have hnames : AreNames b.place := areNames_names _
  have hstays : (segments root.toList).foldlM Tree.step? [] = front.foldlM Tree.step? [] := by
    rcases hroot with hroot | hroot
    · rw [hroot]
    · have hempty : ∀ place, Tree.step? place [] = some place := fun _ => rfl
      simp [hroot, hempty]
  rw [toList_target, hfront _ (not_isAbsolute_join hnames), segments_join b.place_ne_nil hnames,
    List.foldlM_append, hstays]
  cases front.foldlM Tree.step? [] with
  | none => rfl
  | some base => exact Tree.foldlM_step?_of_areNames hnames.isName base

/-- Different places stay different wherever the output directory is. -/
theorem foldlM_step?_target_ne {root : String} {a b : Block} (h : a.place ≠ b.place)
    (hsome : ((segments (b.target root).toList).foldlM Tree.step? []).isSome = true) :
    (segments (a.target root).toList).foldlM Tree.step? [] ≠
      (segments (b.target root).toList).foldlM Tree.step? [] := by
  rw [foldlM_step?_target] at hsome ⊢
  rw [foldlM_step?_target]
  cases hroot : (segments root.toList).foldlM Tree.step? [] with
  | none => simp [hroot] at hsome
  | some base => exact fun heq => h (List.append_cancel_left (Option.some.inj heq))

/-! ### Directory, stem and name -/

/-- The names that lead to the pipeline file's directory. -/
def directory (b : Block) : List (List Char) := names ((parent? b.file.toList).getD [])

/-- The pipeline file's name without its extension. -/
def stem (b : Block) : List Char := (stem? b.file.toList).getD b.file.toList

theorem slash_not_mem_stem {b : Block} {name : List Char}
    (h : fileName? b.file.toList = some name) : '/' ∉ b.stem := by
  have hstem : b.stem = (splitExtension name).1 := by simp [stem, stem?, h]
  intro hslash
  rw [hstem] at hslash
  exact slash_not_mem_of_mem_segments (mem_segments_of_fileName? h).1
    (mem_of_mem_splitExtension hslash)

/-- A name without slashes makes a single file in the directory of the pipeline file. -/
theorem place_of_noSlash {b : Block} (hstem : '/' ∉ b.stem) (hname : '/' ∉ b.name.toList) :
    b.place = b.directory ++ [b.stem ++ '-' :: b.name.toList ++ ".sh".toList] := by
  generalize hfile : b.stem ++ '-' :: b.name.toList ++ ".sh".toList = file
  have hslash : '/' ∉ file := by
    rw [← hfile]
    simpa [hstem] using hname
  have hdash : '-' ∈ file := by simp [← hfile]
  have hsegments : segments file = [file] :=
    Text.split_of_forall fun c hc => beq_false_of_ne fun heq => hslash (heq ▸ hc)
  have hisName : IsName file := isName_of_mem (by decide) hdash
  have hnone : names [] = [] := rfl
  have hnames : names file = [file] := by simp [names, hsegments, hisName]
  unfold place directory outputName
  simp only [stem] at hfile
  simp only [hfile]
  split
  next h => simp [h, hnone, hnames]
  next h => simp [h, hnone, hnames]
  next dir _ h =>
    rw [String.toList_ofList, names_append dir (not_isAbsolute_of_not_mem hslash), h, hnames,
      Option.getD_some]

end PipelineScripts.Script.Block
