import PipelineScripts.Proofs.AliasBinding
import PipelineScripts.Proofs.DocumentNodes
import PipelineScripts.Proofs.MergedAliases
import PipelineScripts.Proofs.WrittenNames
import PipelineScripts.Proofs.WrittenTokens

/-!
# Aliases by name and by number

A stream gives every alias the number of its anchor. The tree has names instead, found again in the
text, and its aliases are bound by them. The two agree just if the last anchor that is found under
the name of an alias is the one with its number.
-/
namespace PipelineScripts.Script

open Yaml

/-! ### The walk -/

/-- The walk knows the anchors of the nodes met so far, latest first. -/
def Knows (f : File) (s : TreeSource) (w : AliasWalk) (met : List (Spot × NodeId)) : Prop :=
  ∀ name, (w.anchors.lookup name).map f.behindTag =
    (met.find? fun p => s.anchorName? p.1 == some name).map Prod.snd

variable {f : File} {s : TreeSource}

theorem behindTag_of_isContent {id : NodeId} (h : f.isContent id = true) : f.behindTag id = id := by
  unfold File.isContent at h
  unfold File.behindTag
  split
  next hk =>
    rw [hk] at h
    cases h
  next => rfl

theorem behindTag_of_tags {content inner : NodeId} {ids : List NodeId}
    (h : f.Tags content inner ids) (hcontent : f.isContent content = true) :
    f.behindTag inner = content := by
  cases h with
  | none => exact behindTag_of_isContent hcontent
  | tag hk => rw [File.behindTag, hk]

theorem foldlM_tags {content inner : NodeId} {ids : List NodeId} (h : f.Tags content inner ids)
    (w : AliasWalk) : ids.foldlM (AliasWalk.visit f) w = .ok w := by
  cases h with
  | none => rfl
  | tag hk =>
    rw [List.foldlM_cons, visit_other hk (by simp) (by simp)]
    rfl

/-- What is set around a node makes its anchor known. -/
theorem exists_foldlM_wraps {x : Spot} {content : NodeId} {wraps : List NodeId}
    (h : f.Wraps s x content wraps) (hcontent : f.isContent content = true) {w : AliasWalk}
    {met : List (Spot × NodeId)} (hw : Knows f s w met) :
    ∃ w', wraps.foldlM (AliasWalk.visit f) w = .ok w' ∧ w'.targets = w.targets ∧
      Knows f s w' ((x, content) :: met) := by
  cases h with
  | bare htags hname =>
    refine ⟨w, foldlM_tags htags w, rfl, fun name => ?_⟩
    rw [hw name, List.find?_cons_of_neg (by simp [hname])]
  | @anchor id inner name ids htags hk hname =>
    refine ⟨{ w with anchors := (name, inner) :: w.anchors }, ?_, rfl, fun other => ?_⟩
    · rw [List.foldlM_cons, visit_anchor hk]
      exact foldlM_tags htags _
    · rw [List.lookup_cons]
      by_cases hsame : other = name
      · subst hsame
        rw [List.find?_cons_of_pos (by simp [hname])]
        simp [behindTag_of_tags htags hcontent]
      · have hne : (other == name) = false := by simpa using hsame
        rw [hne, List.find?_cons_of_neg (by simpa [hname] using Ne.symm hsame)]
        exact hw other

theorem visit_of_shows {e : Event} {id : NodeId} (h : f.Shows e id)
    (halias : ∀ number, e.kind ≠ .aliasOf number) (w : AliasWalk) :
    AliasWalk.visit f w id = .ok w := by
  unfold File.Shows at h
  split at h
  next number hkind => exact absurd hkind (halias number)
  next =>
    obtain ⟨style, hk⟩ | ⟨folded, raw, hk⟩ := h <;> exact visit_other hk (by simp) (by simp)
  next =>
    obtain ⟨items, comments, hk⟩ := h
    exact visit_other hk (by simp) (by simp)
  next =>
    obtain ⟨entries, hk⟩ := h
    exact visit_other hk (by simp) (by simp)
  next => cases h

theorem anchorName?_of_aliasOf {x : Spot} {number : Nat} (h : x.event.kind = .aliasOf number) :
    s.anchorName? x = none := by
  rw [TreeSource.anchorName?, h]
  rfl

/-- An alias is bound to the last node whose anchor is found under its name. -/
def Binds (f : File) (s : TreeSource) (w : AliasWalk) (known : List (Spot × NodeId)) (x : Spot)
    (id : NodeId) : Prop :=
  ∃ target, w.targets.lookup id = some target ∧
    (known.find? fun p => s.anchorName? p.1 == some (s.aliasName x.event)).map Prod.snd =
      some (f.behindTag target)

/-- What is bound stays bound. -/
def Keeps (w w' : AliasWalk) : Prop :=
  ∀ id target, w.targets.lookup id = some target → w'.targets.lookup id = some target

theorem Binds.of_keeps {w w' : AliasWalk} {known : List (Spot × NodeId)} {x : Spot} {id : NodeId}
    (h : Binds f s w known x id) (hkeeps : Keeps w w') : Binds f s w' known x id := by
  obtain ⟨target, htarget, hfind⟩ := h
  exact ⟨target, hkeeps id target htarget, hfind⟩

/-- A node of the stream is visited: an alias is bound, any other changes nothing. -/
theorem visit_shown {x : Spot} {id : NodeId} {known : List (Spot × NodeId)}
    (hshows : f.Shows x.event id)
    (halias : ∀ n, x.event.kind = .aliasOf n → f.kind? id = some (.aliasOf (s.aliasName x.event)))
    {w w' : AliasWalk} (hvisit : AliasWalk.visit f w id = .ok w')
    (hw : Knows f s w ((x, id) :: known)) (hfresh : w.targets.lookup id = none) :
    Keeps w w' ∧ w'.anchors = w.anchors ∧
      (∀ other, other ≠ id → w'.targets.lookup other = w.targets.lookup other) ∧
      ∀ number, x.event.kind = .aliasOf number → Binds f s w' known x id := by
  by_cases hkind : ∃ number, x.event.kind = .aliasOf number
  · obtain ⟨number, hnumber⟩ := hkind
    obtain ⟨target, hlookup, rfl⟩ := exists_of_visit_aliasOf (halias number hnumber) hfresh hvisit
    refine ⟨fun other t ht => ?_, rfl, fun other hother => ?_, fun _ _ => ⟨target, ?_, ?_⟩⟩
    · rw [List.lookup_append, ht, Option.some_or]
    · have hne : (other == id) = false := by simpa using hother
      simp [List.lookup_append, hne]
    · simp [List.lookup_append, hfresh]
    · have hlast := hw (s.aliasName x.event)
      rw [hlookup, List.find?_cons_of_neg (by simp [anchorName?_of_aliasOf hnumber])] at hlast
      exact hlast.symm
  · simp only [not_exists] at hkind
    rw [visit_of_shows hshows hkind] at hvisit
    cases hvisit
    exact ⟨fun _ _ h => h, rfl, fun _ _ => rfl, fun number hnumber => absurd hnumber (hkind number)⟩

/-- A walk over nodes in document order binds every alias. The induction is on the nodes met; the
walk knows those that were met before. -/
theorem binds_of_foldlM {ids : List NodeId} {pairs known : List (Spot × NodeId)}
    (h : f.Met s ids pairs) (hids : ids.Nodup) {w w' : AliasWalk}
    (hwalk : ids.foldlM (AliasWalk.visit f) w = .ok w') (hw : Knows f s w known)
    (hfresh : ∀ id ∈ ids, w.targets.lookup id = none) : Keeps w w' ∧
      ∀ before x id after number, pairs = before ++ (x, id) :: after →
        x.event.kind = .aliasOf number → Binds f s w' (before.reverse ++ known) x id := by
  induction h generalizing w known with
  | nil =>
    cases hwalk
    exact ⟨fun _ _ h => h, by simp⟩
  | entry hk _ ih =>
    rw [List.foldlM_cons, visit_other hk (by simp) (by simp)] at hwalk
    exact ih (List.nodup_cons.mp hids).2 hwalk hw fun id hid =>
      hfresh id (List.mem_cons_of_mem _ hid)
  | @node x id wraps ids pairs hshows halias hwraps _ ih =>
    have hnodup := List.nodup_cons.mp (List.nodup_append.mp hids).2.1
    obtain ⟨w₁, hw₁, htargets, hknows⟩ := exists_foldlM_wraps hwraps hshows.isContent hw
    rw [List.foldlM_append, hw₁] at hwalk
    obtain ⟨w₂, hw₂, hrest⟩ : ∃ w₂, AliasWalk.visit f w₁ id = .ok w₂ ∧
        ids.foldlM (AliasWalk.visit f) w₂ = .ok w' := bind_eq_ok.mp hwalk
    obtain ⟨hkeeps, hanchors, hothers, hbound⟩ := visit_shown hshows halias hw₂ hknows
      (by rw [htargets]; exact hfresh id (by simp))
    have hknows₂ : Knows f s w₂ ((x, id) :: known) := fun name => by rw [hanchors, hknows name]
    obtain ⟨hkeeps', hrest⟩ := ih hnodup.2 hrest hknows₂ fun other hother => by
      rw [hothers other (fun heq => hnodup.1 (heq ▸ hother)), htargets]
      exact hfresh other (by simp [hother])
    refine ⟨fun other t ht => hkeeps' other t (hkeeps other t (by rwa [htargets])), ?_⟩
    intro before y other after number heq hnumber
    cases before with
    | nil =>
      cases heq
      exact (hbound number hnumber).of_keeps hkeeps'
    | cons p before =>
      obtain ⟨rfl, hcons⟩ := List.cons.inj heq
      have hbinds := hrest before y other after number hcons hnumber
      rwa [List.reverse_cons, List.append_assoc]

/-! ### Agreement -/

/-- Every alias of a tree is bound to the node of its anchor: the one that the events give the
number of the alias. -/
def AliasesAgree (f : File) (root : NodeId) (events : List Event) : Prop :=
  ∃ m, AliasMap.build f root = .ok m ∧
    ∀ e id number, (e, id) ∈ (nodeEvents events).zip (f.contents root) →
      e.kind = .aliasOf number → ∃ d target, d.kind.anchor = number ∧
        (d, f.behindTag target) ∈ (nodeEvents events).zip (f.contents root) ∧
        m.target? id = some target

/-- The last anchor that is found under the name of an alias has the number of the alias. -/
def FoundByName (s : TreeSource) (spots : List Spot) : Prop :=
  ∀ before x after number, spots = before ++ x :: after → x.event.kind = .aliasOf number →
    ∃ y, y.event.kind.anchor = number ∧
      LastWith (fun z => s.anchorName? z = some (s.aliasName x.event)) before y

/-- What is mentioned where a node is met. -/
def mentionAt? (s : TreeSource) (x : Spot) : Option Mention :=
  match x.event.kind with
  | .aliasOf _ => some (.aliasOf (s.aliasName x.event))
  | _ => (s.anchorName? x).map .anchor

theorem mention?_of_shows {e : Event} {id : NodeId} (h : f.Shows e id)
    (halias : ∀ number, e.kind ≠ .aliasOf number) : f.mention? id = none := by
  unfold File.Shows at h
  rw [File.mention?]
  split at h
  next number hkind => exact absurd hkind (halias number)
  next =>
    obtain ⟨style, hk⟩ | ⟨folded, raw, hk⟩ := h <;> rw [hk] <;> rfl
  next =>
    obtain ⟨items, comments, hk⟩ := h
    rw [hk]
    rfl
  next =>
    obtain ⟨entries, hk⟩ := h
    rw [hk]
    rfl
  next => cases h

theorem filterMap_tags {content inner : NodeId} {ids : List NodeId} (h : f.Tags content inner ids) :
    ids.filterMap f.mention? = [] := by
  cases h with
  | none => rfl
  | tag hk => simp [File.mention?, hk, NodeKind.mention?]

/-- A tree mentions what is mentioned where its nodes are met. -/
theorem filterMap_mention?_of_met {ids : List NodeId} {pairs : List (Spot × NodeId)}
    (h : f.Met s ids pairs) :
    ids.filterMap f.mention? = (pairs.map Prod.fst).filterMap (mentionAt? s) := by
  induction h with
  | nil => rfl
  | entry hk _ ih =>
    rw [List.filterMap_cons_none (by simp [File.mention?, hk, NodeKind.mention?]), ih]
  | @node x id wraps ids pairs hshows halias hwraps _ ih =>
    have hwraps : wraps.filterMap f.mention? = ((s.anchorName? x).map Mention.anchor).toList := by
      cases hwraps with
      | bare htags hname => rw [filterMap_tags htags, hname]; rfl
      | anchor htags hk hname =>
        rw [List.filterMap_cons, filterMap_tags htags, hname, File.mention?, hk]
        rfl
    rw [List.filterMap_append, hwraps, List.map_cons]
    by_cases hkind : ∃ number, x.event.kind = .aliasOf number
    · obtain ⟨number, hnumber⟩ := hkind
      have hmention : f.mention? id = some (.aliasOf (s.aliasName x.event)) := by
        rw [File.mention?, halias number hnumber]
        rfl
      rw [anchorName?_of_aliasOf hnumber, List.filterMap_cons_some hmention, ih]
      simp [mentionAt?, hnumber]
    · simp only [not_exists] at hkind
      have hmention : mentionAt? s x = (s.anchorName? x).map .anchor := by
        unfold mentionAt?
        split
        next number hnumber => exact absurd hnumber (hkind number)
        next => rfl
      rw [List.filterMap_cons_none (mention?_of_shows hshows hkind), ih, List.filterMap_cons,
        hmention]
      cases s.anchorName? x <;> rfl

/-- Where anchors are found by name, no alias is left without one. -/
theorem bound_of_foundByName {spots : List Spot} (h : FoundByName s spots) :
    Bound (spots.filterMap (mentionAt? s)) := by
  intro before name after heq
  obtain ⟨front, back, rfl, hfront, hback⟩ := List.filterMap_eq_append_iff.mp heq
  obtain ⟨skipped, x, rest, rfl, hskipped, hx, -⟩ := List.filterMap_eq_cons_iff.mp hback
  obtain ⟨number, hnumber, rfl⟩ : ∃ number, x.event.kind = .aliasOf number ∧
      s.aliasName x.event = name := by
    unfold mentionAt? at hx
    split at hx
    next number hnumber =>
      cases hx
      exact ⟨number, hnumber, rfl⟩
    next =>
      obtain ⟨_, _, hx⟩ := Option.map_eq_some_iff.mp hx
      cases hx
  obtain ⟨y, -, A, B, hsplit, hy, -⟩ :=
    h (front ++ skipped) x rest number (List.append_assoc .. ▸ rfl) hnumber
  have hmention : mentionAt? s y = some (.anchor (s.aliasName x.event)) := by
    unfold mentionAt?
    split
    next hkind =>
      rw [anchorName?_of_aliasOf hkind] at hy
      cases hy
    next => rw [hy]; rfl
  have hskip : skipped.filterMap (mentionAt? s) = [] :=
    List.filterMap_eq_nil_iff.mpr hskipped
  rw [← hfront, ← List.append_nil (front.filterMap _), ← hskip, ← List.filterMap_append, hsplit]
  exact List.mem_filterMap.mpr ⟨y, by simp, hmention⟩

/-- An alias is bound to the node of the last anchor before it that is found under its name. -/
theorem exists_target_of_build {root : NodeId} {pairs : List (Spot × NodeId)}
    (hmet : f.Met s (f.preorder root) pairs) (hids : (f.preorder root).Nodup) {m : AliasMap}
    (hm : AliasMap.build f root = .ok m) {before after : List (Spot × NodeId)} {x : Spot}
    {id : NodeId} {number : Nat} (heq : pairs = before ++ (x, id) :: after)
    (hnumber : x.event.kind = .aliasOf number) : ∃ target, m.target? id = some target ∧
      ∃ y, LastWith (fun p => s.anchorName? p.1 = some (s.aliasName x.event)) before
        (y, f.behindTag target) := by
  obtain ⟨w, hw, hm⟩ := bind_eq_ok.mp hm
  cases hm
  have hnone : Knows f s {} [] := fun _ => rfl
  obtain ⟨-, hbinds⟩ := binds_of_foldlM hmet hids hw hnone fun _ _ => rfl
  obtain ⟨target, htarget, hfind⟩ := hbinds before x id after number heq hnumber
  rw [List.append_nil] at hfind
  obtain ⟨⟨y, content⟩, hfind, rfl⟩ := Option.map_eq_some_iff.mp hfind
  refine ⟨target, htarget, y, ?_⟩
  have hlast := lastWith_iff_find?_reverse.mpr hfind
  simpa only [beq_iff_eq] using hlast

/-- Both bindings agree just if anchors are found by name. -/
theorem aliasesAgree_iff {root : NodeId} {events : List Event} {stop : Nat}
    {pairs : List (Spot × NodeId)} (hmet : f.Met s (f.preorder root) pairs)
    (hids : (f.preorder root).Nodup) (hspots : pairs.map Prod.fst = s.spots stop events) :
    AliasesAgree f root events ↔ FoundByName s (s.spots stop events) := by
  have hcontents : f.contents root = pairs.map Prod.snd := hmet.filter_isContent
  have hnodup := hmet.nodup_contents hids
  have hzip : (nodeEvents events).zip (f.contents root) = pairs.map fun p => (p.1.event, p.2) := by
    rw [← s.map_event_spots stop, ← hspots, hcontents, List.map_map, List.zip_map']
    rfl
  constructor
  · rintro ⟨m, hm, hagree⟩ before x after number heq hnumber
    rw [← hspots] at heq
    obtain ⟨front, back, rfl, rfl, hback⟩ := List.map_eq_append_iff.mp heq
    obtain ⟨⟨x, id⟩, rest, rfl, rfl, rfl⟩ := List.map_eq_cons_iff.mp hback
    obtain ⟨target, htarget, y, hlast⟩ := exists_target_of_build hmet hids hm rfl hnumber
    obtain ⟨d, target', hd, hmem, htarget'⟩ := hagree x.event id number
      (by rw [hzip]; exact List.mem_map.mpr ⟨(x, id), by simp, rfl⟩) hnumber
    obtain rfl : target = target' := Option.some.inj (htarget.symm.trans htarget')
    refine ⟨y, ?_, lastWith_map.mpr ⟨_, rfl, hlast⟩⟩
    -- No two nodes are the same, so the node found by name is that of the number.
    rw [hzip] at hmem
    obtain ⟨⟨z, content⟩, hz, heq⟩ := List.mem_map.mp hmem
    obtain ⟨rfl, rfl⟩ := Prod.mk.inj heq
    have hy : (y, f.behindTag target) ∈ front ++ (x, id) :: rest := by
      obtain ⟨A, B, rfl, -⟩ := hlast
      simp
    have hsame := List.inj_on_of_nodup_map hnodup hy hz rfl
    rw [(Prod.mk.inj hsame).1]
    exact hd
  · intro hfound
    have hmentions : f.mentions root = (s.spots stop events).filterMap (mentionAt? s) := by
      rw [File.mentions, filterMap_mention?_of_met hmet, hspots]
    obtain ⟨m, hm⟩ := (build_ok_iff f root).mpr (hmentions ▸ bound_of_foundByName hfound)
    refine ⟨m, hm, fun e id number hmem hnumber => ?_⟩
    rw [hzip] at hmem ⊢
    obtain ⟨⟨x, id⟩, hx, heq⟩ := List.mem_map.mp hmem
    obtain ⟨rfl, rfl⟩ := Prod.mk.inj heq
    obtain ⟨front, back, rfl⟩ := List.append_of_mem hx
    obtain ⟨target, htarget, y, hlast⟩ := exists_target_of_build hmet hids hm rfl hnumber
    obtain ⟨z, hz, hlast'⟩ := hfound (front.map Prod.fst) x (back.map Prod.fst) number
      (by rw [← hspots]; simp) hnumber
    obtain ⟨p, rfl, hp⟩ := lastWith_map.mp hlast'
    obtain rfl := hp.unique hlast
    obtain ⟨A, B, rfl, -⟩ := hlast
    exact ⟨y.event, target, hz, List.mem_map.mpr ⟨(y, f.behindTag target), by simp, rfl⟩, htarget⟩

theorem foundByName_iff_forall_lt {spots : List Spot} : FoundByName s spots ↔
    ∀ i < spots.length, ∀ x ∈ spots[i]?, ∀ number ∈ x.event.kind.aliased?,
      ((spots.take i).reverse.find? fun z => s.anchorName? z = some (s.aliasName x.event)).map
        (·.event.kind.anchor) = some number := by
  constructor
  · intro h i hi x hx number hnumber
    obtain ⟨hi, rfl⟩ := List.getElem?_eq_some_iff.mp hx
    have hsplit : spots = spots.take i ++ spots[i] :: spots.drop (i + 1) := by
      rw [← List.drop_eq_getElem_cons hi, List.take_append_drop]
    obtain ⟨y, hy, hlast⟩ := h _ _ _ number hsplit (EventKind.aliased?_eq_some_iff.mp hnumber)
    have hfind := lastWith_iff_find?_reverse.mp (hlast.congr fun _ _ => decide_eq_true_iff.symm)
    rw [hfind, Option.map_some, hy]
  · rintro h before x after number rfl hnumber
    have hfind := h before.length (by simp) x (by simp) number
      (EventKind.aliased?_eq_some_iff.mpr hnumber)
    rw [List.take_left] at hfind
    obtain ⟨y, hfind, hy⟩ := Option.map_eq_some_iff.mp hfind
    exact ⟨y, hy, (lastWith_iff_find?_reverse.mpr hfind).congr fun _ _ => decide_eq_true_iff⟩

instance (spots : List Spot) : Decidable (FoundByName s spots) :=
  decidable_of_iff' _ foundByName_iff_forall_lt

/-! ### Names -/

/-- A text in which every blank ends a name: it has no blanks but spaces, tabs and line breaks, and
neither a NUL nor a byte order mark. -/
def PlainBlanks (source : List Char) : Prop :=
  ∀ c ∈ source, Text.isBlank c = isGap c ∧ c ≠ '\ufeff'

theorem takeWhile_isAliasNameChar {l : List Char} (h : PlainBlanks l) :
    l.takeWhile isAliasNameChar = l.takeWhile isAnchorNameChar := by
  induction l with
  | nil => rfl
  | cons c l ih =>
    obtain ⟨hblank, hmark⟩ := h c List.mem_cons_self
    have hsame : isAliasNameChar c = isAnchorNameChar c := by
      rw [isAliasNameChar, isAnchorNameChar, hblank]
      simp [hmark]
    rw [List.takeWhile_cons, List.takeWhile_cons, hsame,
      ih fun d hd => h d (List.mem_cons_of_mem c hd)]

/-- The name of an alias is found as it is written. -/
theorem aliasName_eq {source : List Char} (hsource : PlainBlanks source) {t : Token}
    {name : List Char} (ht : t.Written { rest := source }) (hkind : t.kind = .aliasOf name)
    {e : Event} (hspan : t.span = e.span) :
    (File.treeSource source []).aliasName e = String.ofList name := by
  rw [Token.Written, hkind] at ht
  obtain ⟨c, hc, hpeek, hstart, hname⟩ := ht
  have hdrop : source.drop c.mark.index = c.rest := hc.drop_index
  have hrest := Cursor.rest_eq_of_peek hpeek (by decide)
  have hlt : c.mark.index < source.length := by
    rw [← not_le, ← List.drop_eq_nil_iff, hdrop, hrest]
    exact List.cons_ne_nil _ _
  have hoffset : (File.treeSource source []).offset e = c.mark.index := by
    rw [TreeSource.offset, ← hspan, hstart]
    exact min_eq_left hlt.le
  have hbehind : (source.drop (c.mark.index + 1)).takeWhile isAliasNameChar = name := by
    rw [hname, ← hdrop, List.drop_drop, takeWhile_isAliasNameChar fun d hd =>
      hsource d (List.mem_of_mem_drop hd)]
  have hhead : (source.drop c.mark.index).head? = some '*' := by
    rw [hdrop, hrest]
    rfl
  rw [TreeSource.aliasName, hoffset]
  simp only [aliasAt?, File.treeSource, hhead, if_true, min_eq_left hlt.le, Option.bind_eq_bind,
    Option.bind_some, hbehind]
  cases name <;> rfl

/-- The words of the code in a piece of source. -/
def codeWords (region : List Char) : List (List Char) :=
  (Text.lines region).flatMap fun line =>
    Text.split (fun c => Text.isBlank c || c = ',' || c = '[' || c = '\x7b') (codePart line)

/-- A `&` with a name behind it. -/
def AnchorWord (word : List Char) : Prop := ∃ c name, word = '&' :: c :: name

/-- The last anchor among the words of a piece of source is the one that is found. -/
theorem findProperties_of_lastWith {region name : List Char}
    (h : LastWith AnchorWord (codeWords region) ('&' :: name)) :
    (findProperties region).1 = some (String.ofList name) := by
  obtain ⟨c, rest, hword⟩ : AnchorWord ('&' :: name) := by
    obtain ⟨_, _, -, hword, -⟩ := h
    exact hword
  obtain rfl := (List.cons.inj hword).2
  refine h.getLast?_filterMap rfl fun word hnone => ?_
  split
  next d name => exact absurd ⟨d, name, rfl⟩ hnone
  next => rfl

/-- In the code between a node with an anchor and the events before it, the last anchor is the one
that is written for the node. -/
def FoundAsWritten (s : TreeSource) (spots : List Spot) (named : List NamedEvent) : Prop :=
  ∀ x y, (x, y) ∈ spots.zip named → y.event.kind.anchor ≠ 0 →
    LastWith AnchorWord (codeWords ((s.text.drop x.stop).take (s.offset x.event - x.stop)))
      ('&' :: y.name)

/-- A node is met and named with the same event. -/
theorem event_eq_of_mem_zip {spots : List Spot} {named : List NamedEvent}
    (h : spots.map Spot.event = named.map NamedEvent.event) :
    (spots.zip named).map Prod.fst = spots ∧ (spots.zip named).map Prod.snd = named ∧
      ∀ p ∈ spots.zip named, p.1.event = p.2.event := by
  have hlength : spots.length = named.length := by simpa using congrArg List.length h
  have hfst := List.map_fst_zip hlength.le
  have hsnd := List.map_snd_zip hlength.ge
  refine ⟨hfst, hsnd, ?_⟩
  rw [← List.map_inj_left]
  calc (spots.zip named).map (fun p => p.1.event)
      = ((spots.zip named).map Prod.fst).map Spot.event := by simp
    _ = ((spots.zip named).map Prod.snd).map NamedEvent.event := by rw [hfst, hsnd, h]
    _ = (spots.zip named).map (fun p => p.2.event) := by simp

/-- Where anchors are found as they are written, aliases are resolved by what is found. -/
theorem foundByName_of_foundAsWritten {source : List Char} {events : List Event} {stop : Nat}
    {named : List NamedEvent} (hnames : EventReader.Names (scan source).tokens events named)
    (hresolved : Resolved named) (hsource : PlainBlanks source)
    (hfound : FoundAsWritten (File.treeSource source [])
      ((File.treeSource source []).spots stop events) named) :
    FoundByName (File.treeSource source []) ((File.treeSource source []).spots stop events) := by
  intro before x after number heq hnumber
  set s := File.treeSource source []
  obtain ⟨hfst, hsnd, hsame⟩ := event_eq_of_mem_zip
    ((s.map_event_spots stop events).trans hnames.event.symm)
  obtain ⟨front, back, hsplit, rfl, hback⟩ := List.map_eq_append_iff.mp (hfst.trans heq)
  obtain ⟨⟨x, z⟩, rest, rfl, rfl, rfl⟩ := List.map_eq_cons_iff.mp hback
  dsimp only at hnumber ⊢
  have hxz : x.event = z.event := hsame (x, z) (by simp [hsplit])
  have hnamed : named = front.map Prod.snd ++ z :: rest.map Prod.snd := by
    rw [← hsnd, hsplit]
    simp
  obtain ⟨t, ht, hkind, hspan⟩ := hnames.aliasOf z (by simp [hnamed]) number (hxz ▸ hnumber)
  have hname : s.aliasName x.event = String.ofList z.name :=
    aliasName_eq hsource (written_of_mem_scan ht) hkind (hspan.trans (congrArg _ hxz.symm))
  obtain ⟨w, hw, hlast⟩ := hresolved _ z _ number hnamed (hxz ▸ hnumber)
  obtain ⟨⟨y, w⟩, rfl, hlast'⟩ := lastWith_map.mp hlast
  have hmem : ∀ p ∈ front, p ∈ (s.spots stop events).zip named := fun p hp => by
    rw [hsplit]
    exact List.mem_append_left _ hp
  refine ⟨y, by rwa [hsame _ (hmem _ hlast'.mem)], lastWith_map.mpr ⟨(y, w), rfl, ?_⟩⟩
  refine hlast'.congr fun p hp => ?_
  rw [hname]
  by_cases hanchor : p.2.event.kind.anchor = 0
  · have hnone : s.anchorName? p.1 = none := by
      rw [TreeSource.anchorName?, hsame p (hmem p hp), if_pos hanchor]
    simp [hanchor, hnone]
  · have hsome : s.anchorName? p.1 = some (String.ofList p.2.name) := by
      rw [TreeSource.anchorName?, hsame p (hmem p hp), if_neg hanchor]
      exact findProperties_of_lastWith (hsame p (hmem p hp) ▸ hfound p.1 p.2 (hmem p hp) hanchor)
    simp [hanchor, hsome, String.ofList_inj]

/-! ### Files -/

/-- The stream of a file with one document gives each anchor a number of its own and each alias that
of the last anchor of its name. In the tree each alias is bound to the node of its anchor just if
the last anchor that is found under its name is its own. That is so in a text with plain blanks in
which every anchor is found as it is written. -/
theorem aliases_agree_iff {name content : String} {f : File} {root : NodeId}
    (hparse : File.parse name content = .ok f) (hroot : f.documents = [some root]) :
    ∃ events named, Event.read content.toList = .ok events ∧
      EventReader.Names (scan content.toList).tokens events named ∧ Resolved named ∧
      ((events.map (·.kind.anchor)).filter (· != 0)).Nodup ∧
      List.Forall₂ f.Shows (nodeEvents events) (f.contents root) ∧
      (AliasesAgree f root events ↔ FoundByName (File.treeSource content.toList [])
        ((File.treeSource content.toList []).spots 0 events)) ∧
      (PlainBlanks content.toList →
        FoundAsWritten (File.treeSource content.toList [])
          ((File.treeSource content.toList []).spots 0 events) named →
        AliasesAgree f root events) := by
  obtain ⟨events, hread, pairs, hmet, hids, hspots⟩ := File.exists_met hparse hroot
  have hruns := EventReader.runs_of_run hread
  obtain ⟨named, hnames, hresolved⟩ := hruns.exists_names .nil rfl
  obtain ⟨n, hnumbers⟩ := hruns.anchors_eq_range'
  have hagree := aliasesAgree_iff hmet hids hspots
  refine ⟨events, named, hread, hnames, hresolved.resolved, hnumbers ▸ List.nodup_range', ?_,
    hagree, fun hsource hfound => ?_⟩
  · have hcontents : f.contents root = pairs.map Prod.snd := hmet.filter_isContent
    rw [← (File.treeSource content.toList []).map_event_spots 0, ← hspots, hcontents,
      List.map_map, List.forall₂_map_left_iff, List.forall₂_map_right_iff, List.forall₂_same]
    exact hmet.shows
  · exact hagree.mpr (foundByName_of_foundAsWritten hnames hresolved.resolved hsource hfound)

/-- Anchors in block and flow collections. A name is set twice, and one stands in a comment. -/
def anchoredPipeline : String :=
  "images:\n  - &img one # not &img\n  - *img\n" ++
    "  - !t &img \x7btags: &all [a, b]\x7d\n  - [*all, *img]\n"

/-- The aliases of `anchoredPipeline` are bound to their anchors. -/
theorem anchoredPipeline_agrees : ∃ f root events,
    File.parse "ci.yml" anchoredPipeline = .ok f ∧ f.documents = [some root] ∧
      Event.read anchoredPipeline.toList = .ok events ∧ AliasesAgree f root events := by
  have hrun : (File.parse "ci.yml" anchoredPipeline).toOption.map File.documents =
      some [some 18] := by decide +kernel
  obtain ⟨f, hf, hroot⟩ := Option.map_eq_some_iff.mp hrun
  have hparse := toOption_eq_some.mp hf
  obtain ⟨events, -, hread, -, -, -, -, hagree, -⟩ := aliases_agree_iff hparse hroot
  refine ⟨f, 18, events, hparse, hroot, hread, hagree.mpr ?_⟩
  have hall : ∀ events ∈ (Event.read anchoredPipeline.toList).toOption,
      FoundByName (File.treeSource anchoredPipeline.toList [])
        ((File.treeSource anchoredPipeline.toList []).spots 0 events) := by decide +kernel
  exact hall events (toOption_eq_some.mpr hread)

/-- An anchor that stands right behind the colon of a quoted key. -/
def adjacentPipeline : String := "job: \x7b\"before_script\":&x echo, script: *x\x7d\n"

/-- The anchor is not found, and its alias is not bound. -/
theorem adjacentPipeline_disagrees : ∃ f root events,
    File.parse "ci.yml" adjacentPipeline = .ok f ∧ f.documents = [some root] ∧
      Event.read adjacentPipeline.toList = .ok events ∧
      AliasMap.build f root = .error (.unresolvedAlias "x" 1) ∧ ¬ AliasesAgree f root events := by
  have hrun : (File.parse "ci.yml" adjacentPipeline).toOption.map (fun f =>
      (f.documents, AliasMap.build f 9)) =
        some ([some 9], .error (.unresolvedAlias "x" 1)) := by decide +kernel
  obtain ⟨f, hf, hrun⟩ := Option.map_eq_some_iff.mp hrun
  obtain ⟨hroot, hbuild⟩ := Prod.mk.inj hrun
  have hparse := toOption_eq_some.mp hf
  obtain ⟨events, hread, -⟩ := File.exists_met hparse hroot
  refine ⟨f, 9, events, hparse, hroot, hread, hbuild, ?_⟩
  rintro ⟨m, hm, -⟩
  rw [hbuild] at hm
  cases hm

end PipelineScripts.Script
