import PipelineScripts.Proofs.DisabledRules
import PipelineScripts.Proofs.OrderedLists
import PipelineScripts.Script.Draft

/-!
# Combined directives

A directive is a map from keys to values, so it is known by the values of its keys. Key by key, the
more specific of two directives wins, apart from an empty shell, and the disabled rules are united.
Combining is therefore associative, and no directive is its identity: the directives on the way to
a script may be put together from either end.
-/
namespace PipelineScripts.Script

open Text Yaml

namespace Directive

/-! ### Maps with ascending keys -/

theorem lookup_eq_some_iff {entries : List (String × String)}
    (h : entries.Pairwise (·.1 < ·.1)) {key value : String} :
    entries.lookup key = some value ↔ (key, value) ∈ entries := by
  induction entries with
  | nil => simp
  | cons e rest ih =>
    obtain ⟨he, hrest⟩ := List.pairwise_cons.mp h
    rw [lookup_cons_eq_ite, List.mem_cons, Prod.ext_iff]
    split_ifs with hkey
    · -- No later entry has the first key.
      subst hkey
      have hnot : (e.1, value) ∉ rest := fun hmem => by simpa using he _ hmem
      simp [hnot, eq_comm]
    · simp [hkey, ih hrest]

theorem lookup_filter {entries : List (String × String)} (h : entries.Pairwise (·.1 < ·.1))
    (p : String × String → Bool) (key : String) :
    (entries.filter p).lookup key = (entries.lookup key).filter fun value => p (key, value) := by
  ext value
  rw [lookup_eq_some_iff (h.filter p), List.mem_filter, Option.filter_eq_some_iff,
    lookup_eq_some_iff h]

/-- A directive is known by the values of its keys. -/
theorem ext_get? {d e : Directive} (h : ∀ key, d.get? key = e.get? key) : d = e := by
  have hnodup : ∀ x : Directive, x.entries.Nodup := fun x =>
    x.ascending.imp fun hlt heq => by simp [heq] at hlt
  have hmem : ∀ x, x ∈ d.entries ↔ x ∈ e.entries := by
    rintro ⟨key, value⟩
    rw [← lookup_eq_some_iff d.ascending, ← lookup_eq_some_iff e.ascending]
    exact iff_of_eq (congrArg (· = some value) (h key))
  have hperm := (List.perm_ext_iff_of_nodup (hnodup d) (hnodup e)).mpr hmem
  have hentries : d.entries = e.entries :=
    hperm.eq_of_pairwise (fun _ _ _ _ hlt hgt => absurd hgt (String.lt_asymm hlt))
      d.ascending e.ascending
  cases d
  cases e
  simpa using hentries

/-- Of values that are set one after another, each key keeps its own. -/
theorem get?_setAll {values : List (String × String)} (h : values.Pairwise (·.1 < ·.1))
    (d : Directive) (key : String) :
    (values.foldl (fun d (key, value) => d.set key value) d).get? key =
      (values.lookup key).or (d.get? key) := by
  induction values generalizing d with
  | nil => rfl
  | cons e rest ih =>
    obtain ⟨he, hrest⟩ := List.pairwise_cons.mp h
    rw [List.foldl_cons, lookup_cons_eq_ite]
    split_ifs with hkey
    · have hother : ∀ x ∈ rest, x.1 ≠ key := fun x hx heq => by
        have hlt := he x hx
        simp [heq, hkey] at hlt
      rw [get?_foldl_set hother, get?_set, if_pos hkey, Option.some_or]
    · rw [ih hrest, get?_set, if_neg hkey]

/-! ### Values of a combination -/

/-- Whether a value counts in the more specific directive: an empty shell does not. -/
def counts (key value : String) : Bool := !(key == "shell" && value == "")

theorem get?_merge_disable (d e : Directive) : (d.merge e).get? "disable" =
    if (d.get? "disable").isSome || (e.get? "disable").isSome then
      some (joinStrings "," (unionRules d.disabledRules e.disabledRules))
    else none := by
  unfold merge
  dsimp only
  split_ifs with hset
  · rw [get?_set, if_pos rfl]
  · simp only [Bool.or_eq_true, not_or, Bool.not_eq_true, Option.isSome_eq_false_iff,
      Option.isNone_iff_eq_none] at hset
    rw [get?_foldl_set fun x hx => ne_of_get?_eq_none hset.2 x (List.mem_of_mem_filter hx), hset.1]

theorem get?_merge_of_ne {key : String} (h : key ≠ "disable") (d e : Directive) :
    (d.merge e).get? key = ((e.get? key).filter (counts key)).or (d.get? key) := by
  have hvalues := get?_setAll (e.ascending.filter fun x => !(x.1 == "shell" && x.2 == "")) d key
  rw [lookup_filter e.ascending] at hvalues
  unfold merge
  dsimp only
  split_ifs
  · rw [get?_set, if_neg h]
    exact hvalues
  · exact hvalues

/-- The specific shell wins unless it is empty. -/
theorem shell_merge (d e : Directive) :
    (d.merge e).shell = if e.shell = "" then d.shell else e.shell := by
  rw [shell, get?_merge_of_ne (by decide), shell, shell]
  cases e.get? "shell" with
  | none => simp
  | some value => by_cases hempty : value = "" <;> simp [counts, Option.filter_some, hempty]

/-! ### Union of rules -/

theorem unionRules_cons (rules : List String) (r : String) (more : List String) :
    unionRules rules (r :: more) =
      unionRules (if r ∈ rules then rules else rules ++ [r]) more := by
  simp [unionRules]

theorem unionRules_append (rules more others : List String) :
    unionRules rules (more ++ others) = unionRules (unionRules rules more) others :=
  List.foldl_append

/-- A union is the first list with what is new in the second, each rule once. -/
theorem unionRules_eq (rules more : List String) :
    unionRules rules more = rules ++ (more.filter (· ∉ rules)).eraseDups := by
  induction more generalizing rules with
  | nil => simp [unionRules]
  | cons r more ih =>
    rw [unionRules_cons]
    by_cases hr : r ∈ rules
    · rw [if_pos hr, ih, List.filter_cons_of_neg (by simpa using hr)]
    · have hnew : (more.filter (· ∉ rules)).filter (fun x => !x == r) =
          more.filter (· ∉ rules ++ [r]) := by
        rw [List.filter_filter]
        refine List.filter_congr fun x _ => ?_
        by_cases heq : x = r <;> simp [heq]
      rw [if_neg hr, ih, List.filter_cons_of_pos (by simpa using hr), List.eraseDups_cons, hnew,
        List.append_assoc, List.singleton_append]

/-- A rule that is listed already changes nothing, so it does not matter when repetitions go. -/
theorem unionRules_unionRules (rules more others : List String) :
    unionRules rules (unionRules more others) = unionRules rules (more ++ others) := by
  induction others generalizing more with
  | nil => simp [unionRules]
  | cons r others ih =>
    rw [unionRules_cons, ih]
    split_ifs with hr
    · have hlisted : r ∈ unionRules rules more := mem_unionRules.mpr (.inr hr)
      rw [unionRules_append, unionRules_append, unionRules_cons, if_pos hlisted]
    · rw [List.append_assoc, List.singleton_append]

theorem unionRules_assoc (rules more others : List String) :
    unionRules (unionRules rules more) others = unionRules rules (unionRules more others) := by
  rw [unionRules_unionRules, unionRules_append]

/-! ### Combining -/

theorem merge_assoc (d e x : Directive) : (d.merge e).merge x = d.merge (e.merge x) := by
  refine ext_get? fun key => ?_
  by_cases hkey : key = "disable"
  · subst hkey
    simp only [get?_merge_disable, disabledRules_merge, unionRules_assoc]
    cases (d.get? "disable").isSome <;> cases (e.get? "disable").isSome <;> simp
  · simp only [get?_merge_of_ne hkey]
    cases x.get? key with
    | none => simp
    | some value =>
      by_cases hcounts : counts key value = true <;> simp [Option.filter_some, hcounts]

@[simp] theorem combine_none (d : Option Directive) : combine d none = d := by
  cases d <;> rfl

@[simp] theorem none_combine (d : Option Directive) : combine none d = d := by
  cases d <;> rfl

theorem combine_assoc (d e x : Option Directive) :
    combine (combine d e) x = combine d (combine e x) := by
  cases d with
  | none => simp
  | some d =>
    cases e with
    | none => simp
    | some e =>
      cases x with
      | none => simp
      | some x => exact congrArg some (merge_assoc d e x)

end Directive

open Directive

/-! ### On the way to a leaf -/

/-- The directives on the way to a leaf, put together from the inside out. -/
def Leaf.innerDirective (l : Leaf) : Option Directive :=
  l.comments.foldr (fun comments => combine (ofComments? (comments.map (·.text)))) none

/-- What holds around the items can be added last as well as first. -/
theorem Leaf.directive_eq_combine (outer : Option Directive) (l : Leaf) :
    l.directive outer = combine outer l.innerDirective := by
  unfold Leaf.directive Leaf.innerDirective
  generalize l.comments = passed
  induction passed generalizing outer with
  | nil => simp
  | cons comments passed ih => rw [List.foldl_cons, ih, List.foldr_cons, combine_assoc]

/-- Directives combine as a monoid. Of two, the disabled rules are those of the first with what is
new in the second, each once, and the shell is that of the second unless it is empty. So the
directives on the way to a leaf may be combined from the outside in or from the inside out, and
what is made of a leaf, alone or as a block of its section, has the directive that comes of it. -/
theorem directives_combine_as_monoid :
    (∀ a b c : Directive, (a.merge b).merge c = a.merge (b.merge c)) ∧
    (∀ a b c : Option Directive, combine (combine a b) c = combine a (combine b c)) ∧
    (∀ a : Option Directive, combine none a = a ∧ combine a none = a) ∧
    (∀ a b : Directive,
      (a.merge b).disabledRules =
        a.disabledRules ++ (b.disabledRules.filter (· ∉ a.disabledRules)).eraseDups ∧
      (a.merge b).shell = if b.shell = "" then a.shell else b.shell) ∧
    (∀ (l : Leaf) (outer : Option Directive),
      l.directive outer = combine outer l.innerDirective) ∧
    ∀ (s : Scope) (id : NodeId) (out : List Fragment), s.expand id = .ok out →
      ∃ leaves, s.LeadsTo id leaves ∧
        List.Forall₂ (fun l x => x.directive = l.innerDirective ∧
          ∀ (d : Draft) (shell name : String),
            (d.block s.file shell x name).directive = l.directive (d.directive? s.file))
          leaves out := by
  refine ⟨merge_assoc, combine_assoc, fun a => ⟨none_combine a, combine_none a⟩, fun a b => ?_,
    fun l outer => l.directive_eq_combine outer, fun s id out h => ?_⟩
  · rw [disabledRules_merge, unionRules_eq]
    exact ⟨rfl, shell_merge a b⟩
  · obtain ⟨leaves, hleads, hmade⟩ := (Scope.expands_of_expandWithin h).exists_leaves
    refine ⟨leaves, hleads, hmade.imp fun l x hx => ?_⟩
    have hinner : x.directive = l.innerDirective := by
      rw [hx.directive, Leaf.directive_eq_combine, none_combine]
    refine ⟨hinner, fun d shell name => ?_⟩
    rw [Leaf.directive_eq_combine, ← hinner]
    rfl

/-- A sequence in a sequence, with comments at the outer item and at the last of the inner ones. -/
def nestedItems : Scope :=
  let node := fun kind => (⟨kind, ⟨1, 1⟩, "$", 0⟩ : Node)
  { file :=
      { name := "ci.yml"
        sources := ["ci.yml"]
        documents := [some 3]
        nodes := #[node (.scalar "make" .plain), node (.scalar "make test" .plain),
          node (.sequence [0, 1] [[], [⟨1, " scriptcheck shell=sh disable=SC2034"⟩]]),
          node (.sequence [2] [[⟨1, " scriptcheck shell disable=SC2046,SC2086"⟩]])] }
    root := 3
    aliases := {} }

/-- Below a section that sets a shell and disables a rule that is disabled again at the item. -/
theorem nestedItems_directives :
    ∃ out, nestedItems.expand 3 = .ok out ∧
      (out.map fun x => (combine (some (parse "shell=bash disable=SC2086")) x.directive).map
          fun d => (d.shell, d.disabledRules)) =
        [some ("bash", ["SC2086", "SC2046"]), some ("sh", ["SC2086", "SC2046", "SC2034"])] ∧
      ∃ leaves, nestedItems.LeadsTo 3 leaves ∧
        List.Forall₂ (fun l x => x.directive = l.innerDirective ∧
          ∀ (d : Draft) (shell name : String),
            (d.block nestedItems.file shell x name).directive =
              l.directive (d.directive? nestedItems.file))
          leaves out := by
  have hrun : (nestedItems.expand 3).toOption.map (·.map fun x =>
      (combine (some (parse "shell=bash disable=SC2086")) x.directive).map
        fun d => (d.shell, d.disabledRules)) =
      some [some ("bash", ["SC2086", "SC2046"]), some ("sh", ["SC2086", "SC2046", "SC2034"])] := by
    decide +kernel
  obtain ⟨out, hout, hvalues⟩ := Option.map_eq_some_iff.mp hrun
  have hexpand := toOption_eq_some.mp hout
  obtain ⟨-, -, -, -, -, hleaves⟩ := directives_combine_as_monoid
  exact ⟨out, hexpand, hvalues, hleaves nestedItems 3 out hexpand⟩

/-! ### Rules that are listed once -/

/-- A combination lists the rules of both directives once each, in the order they first come, if
and only if the first of the directives lists none of its own twice. What the second repeats is
dropped. -/
theorem combined_rules_listed_once_iff (d e : Directive) :
    (d.merge e).disabledRules = (d.disabledRules ++ e.disabledRules).eraseDups ↔
      d.disabledRules.Nodup := by
  have hfilter : e.disabledRules.filter (· ∉ d.disabledRules) =
      e.disabledRules.removeAll d.disabledRules := by
    refine List.filter_congr fun x _ => ?_
    simp
  rw [disabledRules_merge, unionRules_eq, List.eraseDups_append, hfilter,
    List.append_cancel_right_eq]
  constructor
  · intro h
    rw [h]
    exact nodup_eraseDups _
  · intro h
    exact (eraseDups_of_nodup h).symm

/-- A rule that the first directive lists twice stays there twice. -/
theorem repeatedRule_listed_twice :
    let d := parse "disable=SC2086,SC2086"
    let e := parse "disable=SC2046,SC2046"
    (d.merge e).disabledRules = ["SC2086", "SC2086", "SC2046"] ∧
      (d.disabledRules ++ e.disabledRules).eraseDups = ["SC2086", "SC2046"] := by
  decide +kernel

end PipelineScripts.Script
