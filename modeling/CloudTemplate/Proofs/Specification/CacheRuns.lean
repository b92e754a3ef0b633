import CloudTemplate.Specification.Cache
import Mathlib.Data.Finset.Card
/-! Runs of a cache. Whatever is done to a cache and to the files that it reads, what it has given out for a key is what
it answers for that key again, until it is cleared or the key is given another specification. -/
namespace CloudTemplate.Cache

abbrev Key := String × String

inductive Action where
  | write (path : String) (content : List UInt8)
  | remove (path : String)
  | insert (key : Key) (spec : Specification)
  | get (key : Key)
  | contains (key : Key)
  | size
  | clear

inductive Answer where
  | nothing
  | held (held : Held)
  | fault (fault : SourceFault)
  | whether (answer : Bool)
  | number (n : Nat)

structure World where
  cache : Cache
  files : Files

def World.act (w : World) : Action → World × Answer
  | .write path content => (⟨w.cache, w.files.write path content⟩, .nothing)
  | .remove path => (⟨w.cache, w.files.remove path⟩, .nothing)
  | .insert key spec =>
    let (cache, held) := w.cache.insert key.1 key.2 spec
    (⟨cache, w.files⟩, .held held)
  | .get key =>
    match w.cache.get w.files key.1 key.2 with
    | (cache, .ok held) => (⟨cache, w.files⟩, .held held)
    | (cache, .error fault) => (⟨cache, w.files⟩, .fault fault)
  | .contains key => (w, .whether (w.cache.contains key.1 key.2))
  | .size => (w, .number w.cache.size)
  | .clear => (⟨w.cache.clear, w.files⟩, .nothing)

def keyPath (root : String) (key : Key) : String := Path.join (Path.join root key.1) (key.2 ++ ".json")

def Action.Unsettles (key : Key) (action : Action) : Prop := action = .clear ∨ ∃ spec, action = .insert key spec

def Action.onFiles (files : Files) : Action → Files
  | .write path content => files.write path content
  | .remove path => files.remove path
  | _ => files

def given : Action × Answer → Option (Key × Held)
  | (.insert key _, .held held) => some (key, held)
  | (.get key, .held held) => some (key, held)
  | _ => none

def keep (stored : Finset Key) : Action × Answer → Finset Key
  | (.clear, _) => ∅
  | event => (given event).elim stored fun e => stored ∪ {e.1}

structure Run where
  world : World
  history : List (Action × Answer)

namespace Run

def next (r : Run) (action : Action) : Run :=
  ⟨(r.world.act action).1, r.history ++ [(action, (r.world.act action).2)]⟩

def of (root : String) (files : Files) (actions : List Action) : Run :=
  actions.foldl next ⟨⟨.empty root, files⟩, []⟩

def handed (r : Run) : List (Key × Held) := r.history.filterMap given

def stored (r : Run) : Finset Key := r.history.foldl keep ∅

structure TakesIn (r : Run) (action : Action) (key : Key) (held : Held) : Prop where
  answer : (r.world.act action).2 = .held held
  fresh : ∀ e ∈ r.handed, e.2.number ≠ held.number
  own : (r.world.act action).1.cache.held? key.1 key.2 = some held
  others : ∀ other, other ≠ key →
    (r.world.act action).1.cache.held? other.1 other.2 = r.world.cache.held? other.1 other.2
  files : (r.world.act action).1.files = r.world.files

/-- What can be relied on after a run over files below a folder. -/
structure Steady (root : String) (r : Run) : Prop where
  /-- What is given out for a key is given out for it again, until the cache is cleared or the key gets another. -/
  again : ∀ (key : Key) (held : Held) (first : Action) (between : List Action),
    first = .get key ∨ (∃ spec, first = .insert key spec) → (r.world.act first).2 = .held held →
    (∀ action ∈ between, ¬ action.Unsettles key) → ((between.foldl next (r.next first)).world.act (.get key)).2 = .held held
  /-- What is absent is read from its file as it is. -/
  loads : ∀ key text spec, r.world.cache.contains key.1 key.2 = false →
    r.world.files.text? (keyPath root key) = some text → Specification.read text = .ok spec →
      ∃ held, held.spec = spec ∧ r.TakesIn (.get key) key held
  missing : ∀ key, r.world.cache.contains key.1 key.2 = false → r.world.files.find? (keyPath root key) = none →
    (r.world.act (.get key)).2 = .fault (.notFound (keyPath root key))
  unreadable : ∀ key entry, r.world.cache.contains key.1 key.2 = false →
    r.world.files.find? (keyPath root key) = some entry → r.world.files.text? (keyPath root key) = none →
      (r.world.act (.get key)).2 = .fault .unreadable
  malformed : ∀ key text fault, r.world.cache.contains key.1 key.2 = false →
    r.world.files.text? (keyPath root key) = some text → Specification.read text = .error fault →
      (r.world.act (.get key)).2 = .fault (.json fault)
  /-- A fault changes nothing. -/
  faults : ∀ key fault, (r.world.act (.get key)).2 = .fault fault → (r.world.act (.get key)).1 = r.world
  inserts : ∀ key spec, ∃ held, held.spec = spec ∧ r.TakesIn (.insert key spec) key held
  /-- An object belongs to one key, and stays what it is. -/
  own : ∀ e ∈ r.handed, ∀ f ∈ r.handed, e.2.number = f.2.number → e = f
  contains : ∀ key, (r.world.act (.contains key)).2 = .whether (decide (key ∈ r.stored))
  size : (r.world.act .size).2 = .number r.stored.card

end Run

theorem readText_of_missing {files : Files} {path : String} (h : files.find? path = none) :
    files.readText path = .error (.notFound path) := by
  simp only [Files.readText, h]

theorem readText_of_unreadable {files : Files} {path : String} {entry : FileEntry} (hfind : files.find? path = some entry)
    (htext : files.text? path = none) : files.readText path = .error .unreadable := by
  simp only [Files.readText, hfind, htext]

theorem readText_of_text {files : Files} {path text : String} (h : files.text? path = some text) :
    files.readText path = .ok text := by
  cases hfind : files.find? path with
  | none =>
    rw [Files.text?, hfind] at h
    contradiction
  | some entry => simp only [Files.readText, hfind, h]

theorem ofFile_of_error {files : Files} {path : String} {fault : SourceFault} (h : files.readText path = .error fault) :
    Specification.ofFile files path = .error fault := by
  rw [Specification.ofFile, h]
  rfl

theorem ofFile_of_text {files : Files} {path text : String} (h : files.text? path = some text) :
    Specification.ofFile files path = Specification.ofJson text := by
  rw [Specification.ofFile, readText_of_text h]
  rfl

theorem ofJson_of_ok {text : String} {spec : Specification} (h : Specification.read text = .ok spec) :
    Specification.ofJson text = .ok spec := by
  rw [Specification.ofJson, h]

theorem ofJson_of_error {text : String} {fault : Json.Located} (h : Specification.read text = .error fault) :
    Specification.ofJson text = .error (.json fault) := by
  rw [Specification.ofJson, h]

variable (cache : Cache) (key : Key)

theorem held?_eq_none_iff : cache.held? key.1 key.2 = none ↔ key ∉ cache.held.map Prod.fst := by
  simp only [held?, Option.map_eq_none_iff, List.find?_eq_none, beq_iff_eq, List.mem_map, not_exists, not_and]

theorem mem_of_held? {held : Held} (h : cache.held? key.1 key.2 = some held) : (key, held) ∈ cache.held := by
  obtain ⟨e, hfind, rfl⟩ := Option.map_eq_some_iff.1 h
  have hkey : e.1 = key := by simpa using List.find?_some hfind
  exact hkey ▸ List.mem_of_find?_eq_some hfind

theorem held?_insert (other : Key) (spec : Specification) :
    (cache.insert key.1 key.2 spec).1.held? other.1 other.2 =
      if key = other then some ⟨cache.count, spec⟩ else cache.held? other.1 other.2 := by
  by_cases h : key = other
  · simp [insert, held?, h]
  · have hfilter : (cache.held.filter fun e => e.1 != key).find? (fun e => e.1 == other) =
        cache.held.find? fun e => e.1 == other := by
      rw [List.find?_filter]
      refine congrArg (List.find? · cache.held) (funext fun e => ?_)
      by_cases he : e.1 = other
      · simp [he, Ne.symm h]
      · simp [he]
    rw [if_neg h, insert, held?, List.find?_cons_of_neg (by simpa using h), hfilter, held?]

theorem keys_insert (spec : Specification) :
    (cache.insert key.1 key.2 spec).1.held.map Prod.fst = key :: (cache.held.map Prod.fst).filter fun other => other != key := by
  rw [insert, List.map_cons, List.filter_map]
  rfl

/-- What becomes of a cache: it stays, a specification is taken in under a key that it is given for or that is asked for
and absent, or all is dropped. What is given out is what the cache holds afterwards. -/
inductive Effect (w : World) (action : Action) : Prop
  | kept (hcache : (w.act action).1.cache = w.cache)
      (hgiven : ∀ e, given (action, (w.act action).2) = some e → w.cache.held? e.1.1 e.1.2 = some e.2)
      (hclear : action ≠ .clear)
  | taken {key : Key} {spec : Specification}
      (haction : action = .insert key spec ∨ action = .get key ∧ w.cache.held? key.1 key.2 = none)
      (hcache : (w.act action).1.cache = (w.cache.insert key.1 key.2 spec).1)
      (hgiven : given (action, (w.act action).2) = some (key, ⟨w.cache.count, spec⟩))
  | cleared (h : action = .clear)

namespace World

variable (w : World) (key : Key)

theorem act_get_of_held {held : Held} (h : w.cache.held? key.1 key.2 = some held) :
    w.act (.get key) = (w, .held held) := by
  simp only [act, get, h]

theorem act_get_of_error (habsent : w.cache.held? key.1 key.2 = none) {fault : SourceFault}
    (h : Specification.ofFile w.files (w.cache.path key.1 key.2) = .error fault) :
    w.act (.get key) = (w, .fault fault) := by
  simp only [act, get, habsent, h]

theorem act_get_of_ok (habsent : w.cache.held? key.1 key.2 = none) {spec : Specification}
    (h : Specification.ofFile w.files (w.cache.path key.1 key.2) = .ok spec) :
    w.act (.get key) = w.act (.insert key spec) := by
  simp only [act, get, habsent, h]

theorem act_insert (spec : Specification) :
    w.act (.insert key spec) = (⟨(w.cache.insert key.1 key.2 spec).1, w.files⟩, .held ⟨w.cache.count, spec⟩) := rfl

theorem effect (action : Action) : Effect w action := by
  cases action with
  | write path content => exact .kept rfl (fun _ h => by cases h) nofun
  | remove path => exact .kept rfl (fun _ h => by cases h) nofun
  | contains key => exact .kept rfl (fun _ h => by cases h) nofun
  | size => exact .kept rfl (fun _ h => by cases h) nofun
  | clear => exact .cleared rfl
  | insert key spec => exact .taken (.inl rfl) rfl rfl
  | get key =>
    cases hheld : w.cache.held? key.1 key.2 with
    | some held =>
      have hact := w.act_get_of_held key hheld
      refine .kept (by rw [hact]) (fun e he => ?_) nofun
      rw [hact] at he
      cases he
      exact hheld
    | none =>
      cases hfile : Specification.ofFile w.files (w.cache.path key.1 key.2) with
      | error fault =>
        have hact := w.act_get_of_error key hheld hfile
        refine .kept (by rw [hact]) (fun e he => ?_) nofun
        rw [hact] at he
        cases he
      | ok spec =>
        have hact := w.act_get_of_ok key hheld hfile
        refine .taken (.inr ⟨rfl, hheld⟩) (by rw [hact, act_insert]) ?_
        rw [hact]
        rfl

theorem root_act (action : Action) : (w.act action).1.cache.root = w.cache.root := by
  obtain hcache | ⟨-, hcache⟩ | rfl := w.effect action
  · rw [hcache]
  · rw [hcache]
    rfl
  · rfl

theorem files_act (action : Action) : (w.act action).1.files = action.onFiles w.files := by
  cases action with
  | get key =>
    rw [act]
    split <;> rfl
  | _ => rfl

/-- What is held for a key stays, unless the key is given another specification or all is dropped. -/
theorem held?_act {action : Action} (haction : ¬ action.Unsettles key) {held : Held}
    (h : w.cache.held? key.1 key.2 = some held) :
    (w.act action).1.cache.held? key.1 key.2 = some held := by
  obtain hcache | @⟨other, spec, htaken, hcache⟩ | hclear := w.effect action
  · rw [hcache, h]
  · have hne : other ≠ key := by
      rintro rfl
      obtain rfl | ⟨-, habsent⟩ := htaken
      · exact haction (.inr ⟨spec, rfl⟩)
      · exact Option.some_ne_none held (h.symm.trans habsent)
    rw [hcache, held?_insert, if_neg hne, h]
  · exact absurd (.inl hclear) haction

/-- What has been given out for a key is held for it. -/
theorem held?_of_given {action : Action} {held : Held} (h : given (action, (w.act action).2) = some (key, held)) :
    (w.act action).1.cache.held? key.1 key.2 = some held := by
  obtain ⟨hcache, hgiven⟩ | ⟨haction, hcache, hgiven⟩ | rfl := w.effect action
  · rw [hcache]
    exact hgiven _ h
  · rw [hgiven] at h
    cases h
    rw [hcache, held?_insert, if_pos rfl]
  · cases h

end World

namespace Run

structure Sound (r : Run) : Prop where
  nodup : (r.world.cache.held.map Prod.fst).Nodup
  handed : ∀ e ∈ r.world.cache.held, e ∈ r.handed
  below : ∀ e ∈ r.handed, e.2.number < r.world.cache.count
  own : ∀ e ∈ r.handed, ∀ f ∈ r.handed, e.2.number = f.2.number → e = f
  stored : ∀ key, key ∈ r.stored ↔ key ∈ r.world.cache.held.map Prod.fst

theorem handed_next (r : Run) (action : Action) :
    (r.next action).handed = r.handed ++ (given (action, (r.world.act action).2)).toList := by
  rw [handed, next, List.filterMap_append]
  cases h : given (action, (r.world.act action).2) <;> simp [h, handed]

theorem stored_next (r : Run) (action : Action) :
    (r.next action).stored = keep r.stored (action, (r.world.act action).2) := by
  rw [stored, next, List.foldl_concat]
  rfl

theorem keep_of_ne_clear {stored : Finset Key} {event : Action × Answer} (h : event.1 ≠ .clear) :
    keep stored event = (given event).elim stored fun e => stored ∪ {e.1} := by
  obtain ⟨action, answer⟩ := event
  cases action with
  | clear => exact absurd rfl h
  | _ => rfl

/-- Taking in a specification makes an object that is not yet known, under its own key. -/
theorem Sound.next_of_taken {r : Run} (h : r.Sound) {action : Action} {key : Key} {spec : Specification}
    (hclear : action ≠ .clear)
    (hcache : (r.world.act action).1.cache = (r.world.cache.insert key.1 key.2 spec).1)
    (hgiven : given (action, (r.world.act action).2) = some (key, ⟨r.world.cache.count, spec⟩)) :
    (r.next action).Sound := by
  have hhanded : (r.next action).handed = r.handed ++ [(key, ⟨r.world.cache.count, spec⟩)] := by
    rw [handed_next, hgiven]
    rfl
  have hstored : (r.next action).stored = r.stored ∪ {key} := by
    rw [stored_next, keep_of_ne_clear hclear, hgiven]
    rfl
  have hworld : (r.next action).world.cache = (r.world.cache.insert key.1 key.2 spec).1 := hcache
  refine ⟨?_, fun e he => ?_, fun e he => ?_, fun e he f hf hnumber => ?_, fun other => ?_⟩
  · rw [hworld, keys_insert]
    exact List.nodup_cons.2 ⟨by simp, h.nodup.filter _⟩
  · rw [hworld] at he
    rw [hhanded, List.mem_append, List.mem_singleton]
    obtain rfl | he := List.mem_cons.1 he
    · exact .inr rfl
    · exact .inl (h.handed e (List.mem_of_mem_filter he))
  · rw [hhanded, List.mem_append, List.mem_singleton] at he
    rw [hworld]
    obtain he | rfl := he
    · exact Nat.lt_succ_of_lt (h.below e he)
    · exact Nat.lt_succ_self _
  · rw [hhanded, List.mem_append, List.mem_singleton] at he hf
    obtain he | rfl := he <;> obtain hf | rfl := hf
    · exact h.own e he f hf hnumber
    · exact absurd hnumber (Nat.ne_of_lt (h.below e he))
    · exact absurd hnumber.symm (Nat.ne_of_lt (h.below f hf))
    · rfl
  · rw [hworld, keys_insert, hstored, Finset.mem_union, Finset.mem_singleton, h.stored, List.mem_cons]
    by_cases hkey : other = key <;> simp [hkey]

theorem Sound.next {r : Run} (h : r.Sound) (action : Action) : (r.next action).Sound := by
  obtain ⟨hcache, hgiven, hclear⟩ | @⟨key, spec, haction, hcache, hgiven⟩ | rfl := r.world.effect action
  -- What is given out again was given out before, so nothing is added to what is known.
  · have hworld : (r.next action).world.cache = r.world.cache := hcache
    have hknown : ∀ e ∈ (r.next action).handed, e ∈ r.handed := by
      intro e he
      rw [handed_next, List.mem_append, Option.mem_toList] at he
      exact he.elim id fun he => h.handed e (mem_of_held? _ e.1 (hgiven e he))
    refine ⟨hworld ▸ h.nodup, fun e he => ?_, fun e he => ?_, fun e he f hf => ?_, fun key => ?_⟩
    · rw [handed_next]
      exact List.mem_append_left _ (h.handed e (hworld ▸ he))
    · exact hworld ▸ h.below e (hknown e he)
    · exact h.own e (hknown e he) f (hknown f hf)
    · rw [stored_next, keep_of_ne_clear hclear, hworld, ← h.stored]
      cases hevent : given (action, (r.world.act action).2) with
      | none => rfl
      | some e =>
        have hmem : e.1 ∈ r.stored :=
          (h.stored e.1).2 (List.mem_map_of_mem (mem_of_held? _ e.1 (hgiven e hevent)))
        rw [Option.elim_some, Finset.union_eq_left.2 (Finset.singleton_subset_iff.2 hmem)]
  · refine h.next_of_taken ?_ hcache hgiven
    rintro rfl
    exact haction.elim nofun fun h => nomatch h.1
  -- Clearing forgets what is stored, but not what has been given out.
  · have hhanded : (r.next .clear).handed = r.handed := by
      rw [handed_next]
      exact List.append_nil _
    refine ⟨List.nodup_nil, fun e he => absurd he List.not_mem_nil, ?_, ?_, fun key => ?_⟩
    · rw [hhanded]
      exact h.below
    · rw [hhanded]
      exact h.own
    · rw [stored_next]
      exact iff_of_false (Finset.notMem_empty key) List.not_mem_nil

theorem sound_of (root : String) (files : Files) (actions : List Action) : (of root files actions).Sound := by
  have hstart : (Run.mk ⟨.empty root, files⟩ []).Sound :=
    ⟨List.nodup_nil, nofun, nofun, nofun, fun key => iff_of_false (Finset.notMem_empty key) List.not_mem_nil⟩
  rw [of]
  generalize Run.mk ⟨.empty root, files⟩ [] = r at hstart
  induction actions generalizing r with
  | nil => exact hstart
  | cons action rest ih => exact ih _ (hstart.next action)

theorem root_of (root : String) (files : Files) (actions : List Action) :
    (of root files actions).world.cache.root = root := by
  have hrun (r : Run) : (actions.foldl next r).world.cache.root = r.world.cache.root := by
    induction actions generalizing r with
    | nil => rfl
    | cons action rest ih => exact (ih _).trans (r.world.root_act action)
  exact hrun _

theorem files_of (root : String) (files : Files) (actions : List Action) :
    (of root files actions).world.files = actions.foldl Action.onFiles files := by
  have hrun (r : Run) : (actions.foldl next r).world.files = actions.foldl Action.onFiles r.world.files := by
    induction actions generalizing r with
    | nil => rfl
    | cons action rest ih =>
      rw [List.foldl_cons, List.foldl_cons, ih, ← r.world.files_act action]
      rfl
  exact hrun _

theorem held?_foldl_next (r : Run) (key : Key) {actions : List Action}
    (h : ∀ action ∈ actions, ¬ action.Unsettles key) {held : Held}
    (hheld : r.world.cache.held? key.1 key.2 = some held) :
    (actions.foldl next r).world.cache.held? key.1 key.2 = some held := by
  induction actions generalizing r with
  | nil => exact hheld
  | cons action rest ih =>
    rw [List.forall_mem_cons] at h
    exact ih (r.next action) h.2 (r.world.held?_act key h.1 hheld)

theorem contains_eq_false_iff (cache : Cache) (key : Key) :
    cache.contains key.1 key.2 = false ↔ cache.held? key.1 key.2 = none := by
  rw [contains, Option.isSome_eq_false_iff, Option.isNone_iff_eq_none]

theorem Sound.takesIn_insert {r : Run} (h : r.Sound) (key : Key) (spec : Specification) :
    r.TakesIn (.insert key spec) key ⟨r.world.cache.count, spec⟩ where
  answer := rfl
  fresh e he := Nat.ne_of_lt (h.below e he)
  own := by rw [World.act_insert, held?_insert, if_pos rfl]
  others other hne := by rw [World.act_insert, held?_insert, if_neg hne.symm]
  files := rfl

/-- After any actions a cache is steady, and files are only what writing and removing have made of them. -/
theorem steady_of (root : String) (files : Files) (actions : List Action) :
    (of root files actions).world.files = actions.foldl Action.onFiles files ∧ (of root files actions).Steady root := by
  have hsound := sound_of root files actions
  have hpath (key : Key) : (of root files actions).world.cache.path key.1 key.2 = keyPath root key := by
    rw [path, root_of, keyPath]
  refine ⟨files_of root files actions, ?_⟩
  -- What the run has done so far counts only through soundness and the root.
  generalize of root files actions = r at hsound hpath
  have hfault {key : Key} {fault : SourceFault} (habsent : r.world.cache.contains key.1 key.2 = false)
      (hfile : Specification.ofFile r.world.files (keyPath root key) = .error fault) :
      (r.world.act (.get key)).2 = .fault fault := by
    rw [r.world.act_get_of_error key ((contains_eq_false_iff _ key).1 habsent) (hpath key ▸ hfile)]
  refine ⟨fun key held first between hfirst hanswer hbetween => ?_, fun key text spec habsent htext hread => ?_,
    fun key habsent hfind => hfault habsent (ofFile_of_error (readText_of_missing hfind)),
    fun key entry habsent hfind htext => hfault habsent (ofFile_of_error (readText_of_unreadable hfind htext)),
    fun key text fault habsent htext hread => hfault habsent ((ofFile_of_text htext).trans (ofJson_of_error hread)),
    fun key fault hfault => ?_, fun key spec => ?_, hsound.own, fun key => ?_, ?_⟩
  · have hgiven : given (first, (r.world.act first).2) = some (key, held) := by
      obtain rfl | ⟨spec, rfl⟩ := hfirst <;> rw [hanswer] <;> rfl
    have hheld := held?_foldl_next (r.next first) key hbetween (r.world.held?_of_given key hgiven)
    rw [World.act_get_of_held _ key hheld]
  · have hfile : Specification.ofFile r.world.files (keyPath root key) = .ok spec :=
      (ofFile_of_text htext).trans (ofJson_of_ok hread)
    refine ⟨⟨r.world.cache.count, spec⟩, rfl, ?_⟩
    have hact := r.world.act_get_of_ok key ((contains_eq_false_iff _ key).1 habsent) (hpath key ▸ hfile)
    obtain ⟨hanswer, hfresh, hown, hothers, hfiles⟩ := hsound.takesIn_insert key spec
    exact ⟨hact ▸ hanswer, hfresh, hact ▸ hown, hact ▸ hothers, hact ▸ hfiles⟩
  · cases hheld : r.world.cache.held? key.1 key.2 with
    | some held => rw [r.world.act_get_of_held key hheld]
    | none =>
      cases hfile : Specification.ofFile r.world.files (r.world.cache.path key.1 key.2) with
      | error => rw [r.world.act_get_of_error key hheld hfile]
      | ok spec =>
        rw [r.world.act_get_of_ok key hheld hfile] at hfault
        cases hfault
  · exact ⟨_, rfl, hsound.takesIn_insert key spec⟩
  · have hiff : r.world.cache.contains key.1 key.2 = true ↔ key ∈ r.stored := by
      rw [hsound.stored, ← Bool.not_eq_false, contains_eq_false_iff, held?_eq_none_iff, Classical.not_not]
    rw [World.act]
    exact congrArg Answer.whether (by rw [Bool.eq_iff_iff, hiff, decide_eq_true_iff])
  · have hkeys : r.stored = (r.world.cache.held.map Prod.fst).toFinset := by
      ext key
      rw [hsound.stored, List.mem_toFinset]
    rw [World.act, hkeys, List.toFinset_card_of_nodup hsound.nodup, List.length_map]
    rfl

def twinText : String := "\x7b\"ResourceTypes\":\x7b\"A::B::C\":\x7b\"Documentation\":\"d\"\x7d\x7d\x7d"

def twinFiles : Files :=
  ((Files.empty.write "r/a/b/c.json" (Text.octets twinText)).write "r/a/d.json" (Text.octets "\x7b")).write
    "r/a/e.json" [255]

def twinSpec : Specification :=
  { Specification.empty "" with
    resourceTypes := [("A::B::C", { ResourceType.blank with documentation := some "d" })] }

/-- Two keys whose file is the same have an object each, and keep it when the file is gone. -/
theorem steady_twins :
    let first : Key := ("a/b", "c")
    let second : Key := ("a", "b/c")
    let run := of "r" twinFiles [.insert second (.empty "2")]
    keyPath "r" first = keyPath "r" second ∧
      (∃ held, held.spec = twinSpec ∧ (run.world.act (.get first)).2 = .held held ∧
        (([.remove "r/a/b/c.json", .get second].foldl next (run.next (.get first))).world.act (.get first)).2 =
          .held held) ∧
      (run.world.act (.get second)).2 = .held ⟨0, .empty "2"⟩ ∧
      (run.world.act (.get ("a", "c"))).2 = .fault (.notFound "r/a/c.json") ∧
      (∃ fault, (run.world.act (.get ("a", "d"))).2 = .fault (.json fault)) ∧
      (run.world.act (.get ("a", "e"))).2 = .fault .unreadable := by
  intro first second run
  have hsteady : run.Steady "r" := (steady_of "r" twinFiles [.insert second (.empty "2")]).2
  have hquiet : ∀ action ∈ [Action.remove "r/a/b/c.json", .get second], ¬ action.Unsettles first := by
    simp [Action.Unsettles]
  refine ⟨by decide +kernel, ?_, ?_, ?_, ?_, ?_⟩
  · have htext : twinFiles.text? (keyPath "r" first) = some twinText := by decide +kernel
    obtain ⟨held, hspec, htaken⟩ := hsteady.loads first twinText twinSpec (by decide +kernel) htext (by decide +kernel)
    exact ⟨held, hspec, htaken.answer, hsteady.again first held (.get first) _ (.inl rfl) htaken.answer hquiet⟩
  · rw [World.act_get_of_held]
    decide +kernel
  · exact hsteady.missing ("a", "c") (by decide +kernel) (by decide +kernel)
  · have hfails : (Specification.read "\x7b").toOption = none := by decide +kernel
    cases hread : Specification.read "\x7b" with
    | ok spec =>
      rw [hread] at hfails
      contradiction
    | error fault => exact ⟨fault, hsteady.malformed ("a", "d") "\x7b" fault (by decide +kernel) (by decide +kernel) hread⟩
  · exact hsteady.unreadable ("a", "e") (.file [255]) (by decide +kernel) (by decide +kernel) (by decide +kernel)

end Run

end CloudTemplate.Cache
