import HexBench.FileTree

set_option autoImplicit false

namespace HexBench

namespace FileTree

def follow (t : FileTree) (r : Route) : Except FileError Location :=
  t.walk r.start (if r.wantsDirectory then r.names ++ ["."] else r.names)

def leadsTo (t : FileTree) (path : String) : Except FileError Location :=
  (t.route path).bind t.follow

def placeFor (t : FileTree) (r : Route) : Except FileError Location :=
  match r.names.getLast? with
  | none => .error .isADirectory
  | some name =>
    (t.walk r.start r.names.dropLast).bind fun parent => t.target parent name r.wantsDirectory

def makes (t : FileTree) (path : String) : Except FileError Location :=
  (t.route path).bind t.placeFor

theorem openRead_eq (t : FileTree) (path : String) :
    t.openRead path = (t.leadsTo path).bind fun here =>
      match t.node? here with
      | some node => .ok node
      | none => .error .notFound := by
  simp only [openRead, leadsTo, bind]
  cases t.route path <;> rfl

theorem create_eq (t : FileTree) (path : String) :
    t.create path = (t.makes path).map fun here => (here, t.put here #[]) := by
  simp only [create, makes, bind]
  cases t.route path with
  | error e => rfl
  | ok r =>
    simp only [Except.bind, placeFor]
    cases r.names.getLast? with
    | none => rfl
    | some name =>
      cases t.walk r.start r.names.dropLast with
      | error e => rfl
      | ok parent =>
        simp only
        cases t.target parent name r.wantsDirectory <;> rfl

theorem leadsTo_eq_ok_iff {t : FileTree} {path : String} {here : Location} :
    t.leadsTo path = .ok here ↔ ∃ r, t.route path = .ok r ∧ t.follow r = .ok here := by
  rw [leadsTo]
  cases t.route path with
  | error e => simp [Except.bind]
  | ok r => simp [Except.bind]

theorem makes_eq_ok_iff {t : FileTree} {path : String} {here : Location} :
    t.makes path = .ok here ↔ ∃ r name parent, t.route path = .ok r ∧
      r.names.getLast? = some name ∧ t.walk r.start r.names.dropLast = .ok parent ∧
      t.target parent name r.wantsDirectory = .ok here := by
  constructor
  · intro h
    rw [makes] at h
    cases hroute : t.route path with
    | error e => rw [hroute] at h; cases h
    | ok r =>
      rw [hroute] at h
      simp only [Except.bind, placeFor] at h
      cases hlast : r.names.getLast? with
      | none => rw [hlast] at h; cases h
      | some name =>
        simp only [hlast] at h
        cases hwalk : t.walk r.start r.names.dropLast with
        | error e => rw [hwalk] at h; cases h
        | ok parent =>
          rw [hwalk] at h
          exact ⟨r, name, parent, rfl, hlast, hwalk, h⟩
  · rintro ⟨r, name, parent, hroute, hlast, hwalk, htarget⟩
    simp only [makes, hroute, Except.bind, placeFor, hlast, hwalk, htarget]

section Places

/-- A tree that has all that another has, and no other directories. -/
structure Extends (t t' : FileTree) : Prop where
  workingDirectory : t'.workingDirectory = t.workingDirectory
  isDirectory : ∀ here, t'.isDirectory here = t.isDirectory here
  present : ∀ here, (t.content? here).isSome → (t'.content? here).isSome

theorem Extends.refl (t : FileTree) : t.Extends t := ⟨rfl, fun _ => rfl, fun _ => id⟩

theorem Extends.trans {t u v : FileTree} (h : t.Extends u) (h' : u.Extends v) : t.Extends v :=
  ⟨h'.workingDirectory.trans h.workingDirectory,
    fun here => (h'.isDirectory here).trans (h.isDirectory here),
    fun here hpresent => h'.present here (h.present here hpresent)⟩

theorem Extends.route {t t' : FileTree} (h : t.Extends t') (path : String) :
    t'.route path = t.route path := by
  simp only [FileTree.route, h.workingDirectory]

theorem Extends.node? {t t' : FileTree} (h : t.Extends t') {here : Location}
    (hnode : (t.node? here).isSome) : (t'.node? here).isSome := by
  simp only [FileTree.node?, h.isDirectory here] at hnode ⊢
  split
  · rfl
  · rename_i hdirectory
    rw [if_neg hdirectory, Option.isSome_map] at hnode
    rw [Option.isSome_map]
    exact h.present here hnode

theorem descend_of_node? {t t' : FileTree} {here there : Location} {name : String}
    (hdirectory : t'.isDirectory here = t.isDirectory here)
    (hnode : (t.node? there).isSome → (t'.node? there).isSome)
    (h : t.descend here name = .ok there) : t'.descend here name = .ok there := by
  simp only [FileTree.descend, hdirectory] at h ⊢
  split at h
  · cases h
  split at h
  · rwa [if_neg (by assumption), if_pos (by assumption)]
  split at h
  · rwa [if_neg (by assumption), if_neg (by assumption), if_pos (by assumption)]
  split at h
  · cases h
  split at h
  · rename_i hthere
    obtain rfl := Except.ok.inj h
    rw [if_neg (by assumption), if_neg (by assumption), if_neg (by assumption),
      if_neg (by assumption), if_pos (hnode hthere)]
  · cases h

theorem Extends.descend {t t' : FileTree} (h : t.Extends t') {here there : Location}
    {name : String} (hdescend : t.descend here name = .ok there) :
    t'.descend here name = .ok there :=
  descend_of_node? (h.isDirectory here) h.node? hdescend

theorem Extends.walk {t t' : FileTree} (h : t.Extends t') {start there : Location}
    {names : List String} (hwalk : t.walk start names = .ok there) :
    t'.walk start names = .ok there := by
  induction names generalizing start with
  | nil => exact hwalk
  | cons name names ih =>
    simp only [FileTree.walk, List.foldlM_cons, bind, Except.bind] at hwalk ⊢
    cases hdescend : t.descend start name with
    | error e => rw [hdescend] at hwalk; cases hwalk
    | ok next =>
      rw [hdescend] at hwalk
      rw [h.descend hdescend]
      exact ih hwalk

theorem Extends.target {t t' : FileTree} (h : t.Extends t') (parent : Location) (name : String)
    (wantsDirectory : Bool) :
    t'.target parent name wantsDirectory = t.target parent name wantsDirectory := by
  simp only [FileTree.target, h.isDirectory]

theorem Extends.makes {t t' : FileTree} (h : t.Extends t') {path : String} {here : Location}
    (hmakes : t.makes path = .ok here) : t'.makes path = .ok here := by
  obtain ⟨r, name, parent, hroute, hlast, hwalk, htarget⟩ := makes_eq_ok_iff.mp hmakes
  exact makes_eq_ok_iff.mpr ⟨r, name, parent, (h.route path).trans hroute, hlast, h.walk hwalk,
    (h.target parent name r.wantsDirectory).trans htarget⟩

theorem Extends.leadsTo {t t' : FileTree} (h : t.Extends t') {path : String} {here : Location}
    (hleads : t.leadsTo path = .ok here) : t'.leadsTo path = .ok here := by
  obtain ⟨r, hroute, hfollow⟩ := leadsTo_eq_ok_iff.mp hleads
  exact leadsTo_eq_ok_iff.mpr ⟨r, (h.route path).trans hroute, h.walk hfollow⟩

theorem walk_of_file {t : FileTree} {here there : Location} {names : List String}
    (hfile : t.isDirectory here = false) (hwalk : t.walk here names = .ok there) :
    there = here := by
  cases names with
  | nil => exact (Except.ok.inj hwalk).symm
  | cons name names =>
    have hdescend : t.descend here name = .error .notADirectory := by
      rw [FileTree.descend, hfile]
      rfl
    simp only [FileTree.walk, List.foldlM_cons, hdescend] at hwalk
    cases hwalk

theorem node?_of_isDirectory {t : FileTree} {here : Location} (h : t.isDirectory here = true) :
    (t.node? here).isSome := by
  rw [FileTree.node?, if_pos h]
  rfl

/-- Only the end of a walk can be a file, so trees with the same directories differ in a walk by its
end at most. -/
theorem walk_of_node? {t t' : FileTree}
    (hdirectory : ∀ here, t'.isDirectory here = t.isDirectory here)
    {start there : Location} {names : List String}
    (hnode : (t'.node? there).isSome → (t.node? there).isSome)
    (hwalk : t'.walk start names = .ok there) : t.walk start names = .ok there := by
  induction names generalizing start with
  | nil => exact hwalk
  | cons name names ih =>
    simp only [FileTree.walk, List.foldlM_cons, bind, Except.bind] at hwalk ⊢
    cases hdescend : t'.descend start name with
    | error e => rw [hdescend] at hwalk; cases hwalk
    | ok next =>
      rw [hdescend] at hwalk
      have hnext : (t'.node? next).isSome → (t.node? next).isSome := by
        intro hsome
        cases hkind : t'.isDirectory next with
        | true => exact node?_of_isDirectory ((hdirectory next).symm.trans hkind)
        | false =>
          obtain rfl := walk_of_file hkind hwalk
          exact hnode hsome
      rw [descend_of_node? (hdirectory start).symm hnext hdescend]
      exact ih hwalk

theorem Extends.leadsTo_of_node? {t t' : FileTree} (h : t.Extends t') {path : String}
    {here : Location} (hnode : (t'.node? here).isSome → (t.node? here).isSome)
    (hleads : t'.leadsTo path = .ok here) : t.leadsTo path = .ok here := by
  obtain ⟨r, hroute, hfollow⟩ := leadsTo_eq_ok_iff.mp hleads
  exact leadsTo_eq_ok_iff.mpr
    ⟨r, (h.route path).symm.trans hroute, walk_of_node? h.isDirectory hnode hfollow⟩

end Places

section Contents

/-- Trees with the same places, and the same files but for one that may be left out. -/
structure AgreesOff (place : Option Location) (t t' : FileTree) : Prop where
  workingDirectory : t'.workingDirectory = t.workingDirectory
  isDirectory : ∀ here, t'.isDirectory here = t.isDirectory here
  present : ∀ here, (t'.content? here).isSome = (t.content? here).isSome
  content : ∀ here, place ≠ some here → t'.content? here = t.content? here

variable {place : Option Location} {t t' : FileTree}

theorem AgreesOff.refl (place : Option Location) (t : FileTree) : t.AgreesOff place t :=
  ⟨rfl, fun _ => rfl, fun _ => rfl, fun _ _ => rfl⟩

theorem AgreesOff.symm (h : t.AgreesOff place t') : t'.AgreesOff place t :=
  ⟨h.workingDirectory.symm, fun here => (h.isDirectory here).symm,
    fun here => (h.present here).symm, fun here hother => (h.content here hother).symm⟩

theorem AgreesOff.trans {u : FileTree} (h : t.AgreesOff place t') (h' : t'.AgreesOff place u) :
    t.AgreesOff place u :=
  ⟨h'.workingDirectory.trans h.workingDirectory,
    fun here => (h'.isDirectory here).trans (h.isDirectory here),
    fun here => (h'.present here).trans (h.present here),
    fun here hother => (h'.content here hother).trans (h.content here hother)⟩

theorem AgreesOff.extends (h : t.AgreesOff place t') : t.Extends t' :=
  ⟨h.workingDirectory, h.isDirectory, fun here hpresent => (h.present here).trans hpresent⟩

theorem AgreesOff.node?_isSome (h : t.AgreesOff place t') (here : Location) :
    (t'.node? here).isSome = (t.node? here).isSome := by
  simp only [FileTree.node?, h.isDirectory]
  split
  · rfl
  · rw [Option.isSome_map, Option.isSome_map, h.present]

theorem AgreesOff.walk (h : t.AgreesOff place t') (start : Location) (names : List String) :
    t'.walk start names = t.walk start names := by
  have hdescend : t'.descend = t.descend := by
    funext here name
    simp only [FileTree.descend, h.isDirectory, h.node?_isSome]
  rw [FileTree.walk, FileTree.walk, hdescend]

theorem AgreesOff.leadsTo (h : t.AgreesOff place t') (path : String) :
    t'.leadsTo path = t.leadsTo path := by
  have hfollow : t'.follow = t.follow := funext fun r => h.walk r.start _
  rw [FileTree.leadsTo, FileTree.leadsTo, h.extends.route, hfollow]

theorem AgreesOff.openRead (h : t.AgreesOff place t') {path : String}
    (hother : ∀ here, t.leadsTo path = .ok here → place ≠ some here) :
    t'.openRead path = t.openRead path := by
  rw [openRead_eq, openRead_eq, h.leadsTo]
  cases hleads : t.leadsTo path with
  | error e => rfl
  | ok here =>
    have hnode : t'.node? here = t.node? here := by
      simp only [FileTree.node?, h.isDirectory, h.content here (hother here hleads)]
    simp only [Except.bind, hnode]

def change (t : FileTree) (here : Location) (f : Array UInt8 → Array UInt8) : FileTree :=
  { t with files := t.files.map fun file => if file.1 = here then (file.1, f file.2) else file }

theorem content?_change (t : FileTree) (here other : Location) (f : Array UInt8 → Array UInt8) :
    (t.change here f).content? other =
      (t.content? other).map fun content => if other = here then f content else content := by
  simp only [content?, change]
  induction t.files with
  | nil => rfl
  | cons file files ih =>
    obtain ⟨location, content⟩ := file
    have hlocation : (if location = here then (location, f content) else (location, content)) =
        (location, if location = here then f content else content) := by
      split <;> rfl
    rw [List.map_cons, hlocation, List.lookup_cons, List.lookup_cons]
    by_cases hother : other = location
    · subst hother
      simp only [beq_self_eq_true, Option.map_some]
    · have hne : (other == location) = false := by simpa using hother
      simp only [hne, ih]

theorem isDirectory_change (t : FileTree) (here other : Location) (f : Array UInt8 → Array UInt8) :
    (t.change here f).isDirectory other = t.isDirectory other := by
  have hany (p : Location → Bool) :
      (t.change here f).files.any (fun file => p file.1) = t.files.any fun file => p file.1 := by
    rw [change, List.any_map]
    congr 1
    funext file
    by_cases hhere : file.1 = here <;> simp [hhere]
  simp only [isDirectory]
  rw [hany fun location => decide (other.length < location.length) && other.isPrefixOf location]
  rfl

theorem agreesOff_change (t : FileTree) (here : Location) (f : Array UInt8 → Array UInt8) :
    t.AgreesOff (some here) (t.change here f) where
  workingDirectory := rfl
  isDirectory other := isDirectory_change t here other f
  present other := by rw [content?_change, Option.isSome_map]
  content other hother := by
    have hne : ¬ other = here := fun heq => hother (congrArg some heq.symm)
    simp only [content?_change, if_neg hne, Option.map_id']

theorem AgreesOff.change (h : t.AgreesOff place t') (here : Location)
    (f : Array UInt8 → Array UInt8) : (t.change here f).AgreesOff place (t'.change here f) where
  workingDirectory := h.workingDirectory
  isDirectory other := by rw [isDirectory_change, isDirectory_change, h.isDirectory]
  present other := by
    rw [content?_change, content?_change, Option.isSome_map, Option.isSome_map, h.present]
  content other hother := by rw [content?_change, content?_change, h.content other hother]

theorem agreesOff_write (t : FileTree) (here : Location) (offset : Nat) (bytes : Bytes) :
    t.AgreesOff (some here) (t.write here offset bytes) :=
  agreesOff_change t here fun content => overwrite content offset bytes

theorem AgreesOff.write (h : t.AgreesOff place t') (here : Location) (offset : Nat)
    (bytes : Bytes) : (t.write here offset bytes).AgreesOff place (t'.write here offset bytes) :=
  h.change here fun content => overwrite content offset bytes

theorem content?_write (t : FileTree) (here : Location) (offset : Nat) (bytes : Bytes) :
    (t.write here offset bytes).content? here =
      (t.content? here).map fun content => overwrite content offset bytes := by
  have hchange := content?_change t here here fun content => overwrite content offset bytes
  simp only [if_true] at hchange
  exact hchange

theorem put_present {t : FileTree} {here : Location} (h : (t.content? here).isSome)
    (content : Array UInt8) : t.put here content = t.change here fun _ => content := by
  rw [put, if_pos h, change]

theorem agreesOff_put {t : FileTree} {here : Location} (h : (t.content? here).isSome)
    (content : Array UInt8) : t.AgreesOff (some here) (t.put here content) := by
  rw [put_present h]
  exact agreesOff_change t here fun _ => content

theorem content?_put (t : FileTree) (here : Location) (content : Array UInt8) :
    (t.put here content).content? here = some content := by
  by_cases h : (t.content? here).isSome
  · obtain ⟨old, hold⟩ := Option.isSome_iff_exists.mp h
    rw [put_present h, content?_change, hold, Option.map_some, if_pos rfl]
  · have hnone : t.files.lookup here = none := Option.not_isSome_iff_eq_none.mp h
    rw [put, if_neg h, content?, List.lookup_append, hnone, Option.none_or,
      List.lookup_cons_self]

theorem content?_put_of_ne (t : FileTree) {here other : Location} (hother : other ≠ here)
    (content : Array UInt8) : (t.put here content).content? other = t.content? other := by
  by_cases h : (t.content? here).isSome
  · rw [put_present h, content?_change]
    simp only [if_neg hother, Option.map_id']
  · have hne : (other == here) = false := by simpa using hother
    rw [put, if_neg h, content?, List.lookup_append, List.lookup_cons, hne, List.lookup_nil,
      Option.or_none]
    rfl

theorem agreesOff_put_same {t : FileTree} {here : Location} {content : Array UInt8}
    (h : t.content? here = some content) (place : Option Location) :
    t.AgreesOff place (t.put here content) := by
  have hput : t.AgreesOff (some here) (t.put here content) :=
    agreesOff_put (by rw [h]; rfl) content
  refine ⟨hput.workingDirectory, hput.isDirectory, hput.present, fun other _ => ?_⟩
  by_cases hother : other = here
  · rw [hother, content?_put, h]
  · exact content?_put_of_ne t hother content

end Contents

section Making

theorem isDirectory_of_prefix {t : FileTree} {below above : Location} (h : above <+: below)
    (hdirectory : t.isDirectory below = true) : t.isDirectory above = true := by
  simp only [isDirectory, Bool.or_eq_true, List.any_eq_true, Bool.and_eq_true, decide_eq_true_eq,
    List.isPrefixOf_iff_prefix, List.isEmpty_iff] at hdirectory ⊢
  rcases hdirectory with (hroot | ⟨d, hd, hbelow⟩) | ⟨f, hf, hshorter, hbelow⟩
  · exact .inl (.inl (List.prefix_nil.mp (hroot ▸ h)))
  · exact .inl (.inr ⟨d, hd, h.trans hbelow⟩)
  · exact .inr ⟨f, hf, Nat.lt_of_le_of_lt h.length_le hshorter, h.trans hbelow⟩

theorem isDirectory_put {t : FileTree} {parent : Location} (h : t.isDirectory parent = true)
    (name : String) (content : Array UInt8) (here : Location) :
    (t.put (parent ++ [name]) content).isDirectory here = t.isDirectory here := by
  by_cases hpresent : (t.content? (parent ++ [name])).isSome
  · exact (agreesOff_put hpresent content).isDirectory here
  · rw [put, if_neg hpresent]
    by_cases hnew : here.length < (parent ++ [name]).length ∧ here <+: parent ++ [name]
    · have habove : here <+: parent := by
        rw [List.length_append, List.length_singleton] at hnew
        exact List.prefix_of_prefix_length_le hnew.2 (List.prefix_append parent [name]) (by omega)
      have hold := isDirectory_of_prefix habove h
      simp only [isDirectory, List.any_append] at hold ⊢
      rw [hold, ← Bool.or_assoc, hold, Bool.true_or]
    · have hnone : (decide (here.length < (parent ++ [name]).length)
          && here.isPrefixOf (parent ++ [name])) = false := by
        rw [Bool.eq_false_iff]
        simpa [List.isPrefixOf_iff_prefix] using hnew
      simp only [isDirectory, List.any_append, List.any_cons, List.any_nil, hnone, Bool.or_false]

theorem put_extends {t : FileTree} {parent : Location} (h : t.isDirectory parent = true)
    (name : String) (content : Array UInt8) : t.Extends (t.put (parent ++ [name]) content) where
  workingDirectory := rfl
  isDirectory := isDirectory_put h name content
  present here hpresent := by
    by_cases hput : (t.content? (parent ++ [name])).isSome
    · exact (agreesOff_put hput content).extends.present here hpresent
    · rw [put, if_neg hput]
      rw [content?] at hpresent
      rw [content?, List.lookup_append, Option.isSome_or, hpresent, Bool.true_or]

theorem target_ok {t : FileTree} {parent here : Location} {name : String} {wantsDirectory : Bool}
    (h : t.target parent name wantsDirectory = .ok here) :
    t.isDirectory parent = true ∧ t.isDirectory here = false ∧ here = parent ++ [name] := by
  unfold target at h
  split at h
  · cases h
  split at h
  · cases h
  split at h
  · cases h
  split at h
  · cases h
  · rename_i hdirectory _ hfile _
    obtain rfl := Except.ok.inj h
    exact ⟨by simpa using hdirectory, by simpa using hfile, rfl⟩

theorem makes_ok {t : FileTree} {path : String} {here : Location} (h : t.makes path = .ok here) :
    ∃ parent name, here = parent ++ [name] ∧ t.isDirectory parent = true ∧
      t.isDirectory here = false := by
  obtain ⟨_, name, parent, _, _, _, htarget⟩ := makes_eq_ok_iff.mp h
  obtain ⟨hparent, hfile, hhere⟩ := target_ok htarget
  exact ⟨parent, name, hhere, hparent, hfile⟩

theorem makes_put {t : FileTree} {path : String} {here : Location} (h : t.makes path = .ok here)
    (content : Array UInt8) :
    t.Extends (t.put here content) ∧ (t.put here content).makes path = .ok here := by
  have hextends : t.Extends (t.put here content) := by
    obtain ⟨parent, name, rfl, hparent, _⟩ := makes_ok h
    exact put_extends hparent name content
  exact ⟨hextends, hextends.makes h⟩

theorem Extends.makes_iff {t t' : FileTree} (h : t.Extends t') {path : String} {here : Location} :
    t'.makes path = .ok here ↔ t.makes path = .ok here := by
  refine ⟨fun hmakes => ?_, h.makes⟩
  obtain ⟨r, name, parent, hroute, hlast, hwalk, htarget⟩ := makes_eq_ok_iff.mp hmakes
  rw [h.target] at htarget
  have hparent := node?_of_isDirectory (target_ok htarget).1
  exact makes_eq_ok_iff.mpr ⟨r, name, parent, (h.route path).symm.trans hroute, hlast,
    walk_of_node? h.isDirectory (fun _ => hparent) hwalk, htarget⟩

theorem Extends.leadsTo_put {t t' : FileTree} (h : t.Extends t') {made path : String}
    {here : Location} (hmakes : t.makes made = .ok here) (content : Array UInt8)
    (hleads : t'.leadsTo path = .ok here) : (t.put here content).leadsTo path = .ok here := by
  have hput := (makes_put hmakes content).1
  obtain ⟨r, hroute, hfollow⟩ := leadsTo_eq_ok_iff.mp hleads
  have hnode : ((t.put here content).node? here).isSome := by
    obtain ⟨_, _, _, _, hfile⟩ := makes_ok hmakes
    rw [FileTree.node?, hput.isDirectory, hfile, content?_put]
    rfl
  exact leadsTo_eq_ok_iff.mpr ⟨r, (hput.route path).trans ((h.route path).symm.trans hroute),
    walk_of_node? (fun other => (h.isDirectory other).trans (hput.isDirectory other).symm)
      (fun _ => hnode) hfollow⟩

section AgreesOff

variable {place : Option Location} {t t' : FileTree}

theorem AgreesOff.mono (h : t.AgreesOff none t') (place : Option Location) : t.AgreesOff place t' :=
  ⟨h.workingDirectory, h.isDirectory, h.present, fun here _ => h.content here nofun⟩

theorem AgreesOff.makes (h : t.AgreesOff place t') (path : String) :
    t'.makes path = t.makes path := by
  have hplace : t'.placeFor = t.placeFor := by
    funext r
    simp only [placeFor, h.walk, h.extends.target]
  rw [FileTree.makes, FileTree.makes, h.extends.route, hplace]

theorem AgreesOff.put (h : t.AgreesOff place t') {path : String} {here : Location}
    (hmakes : t.makes path = .ok here) (content : Array UInt8) :
    (t.put here content).AgreesOff place (t'.put here content) where
  workingDirectory := h.workingDirectory
  isDirectory other := by
    rw [(makes_put ((h.makes path).trans hmakes) content).1.isDirectory, h.isDirectory,
      (makes_put hmakes content).1.isDirectory]
  present other := by
    by_cases hother : other = here
    · rw [hother, content?_put, content?_put]
    · rw [content?_put_of_ne t' hother, content?_put_of_ne t hother, h.present]
  content other hplace := by
    by_cases hother : other = here
    · rw [hother, content?_put, content?_put]
    · rw [content?_put_of_ne t' hother, content?_put_of_ne t hother, h.content other hplace]

end AgreesOff

end Making

section Gains

/-- A tree with the same files as another, but for some places where files may be new or written. -/
structure Gains (places : List Location) (t t' : FileTree) : Prop extends t.Extends t' where
  content : ∀ here, here ∉ places → t'.content? here = t.content? here

variable {places : List Location} {t t' : FileTree}

theorem Gains.refl (places : List Location) (t : FileTree) : t.Gains places t :=
  ⟨.refl t, fun _ _ => rfl⟩

theorem Gains.trans {u : FileTree} (h : t.Gains places t') (h' : t'.Gains places u) :
    t.Gains places u :=
  ⟨h.toExtends.trans h'.toExtends,
    fun here hother => (h'.content here hother).trans (h.content here hother)⟩

theorem Gains.agrees (h : t.Gains places t') {written : Option Location} {u : FileTree}
    (hu : t'.AgreesOff written u) (hwritten : ∀ here, written = some here → here ∈ places) :
    t.Gains places u where
  toExtends := h.toExtends.trans hu.extends
  content here hother :=
    (hu.content here fun hhere => hother (hwritten here hhere)).trans (h.content here hother)

theorem Gains.put (h : t.Gains places t') {path : String} {here : Location}
    (hmakes : t'.makes path = .ok here) (hplace : here ∈ places) (content : Array UInt8) :
    t.Gains places (t'.put here content) where
  toExtends := h.toExtends.trans (makes_put hmakes content).1
  content other hother := by
    have hne : other ≠ here := fun heq => hother (heq ▸ hplace)
    rw [content?_put_of_ne t' hne, h.content other hother]

theorem Gains.node? (h : t.Gains places t') {here : Location} (hother : here ∉ places) :
    t'.node? here = t.node? here := by
  rw [FileTree.node?, FileTree.node?, h.isDirectory, h.content here hother]

theorem Gains.leadsTo (h : t.Gains places t') {path : String} {here : Location}
    (hleads : t'.leadsTo path = .ok here) (hother : here ∉ places) : t.leadsTo path = .ok here :=
  h.leadsTo_of_node? (fun hnode => by rwa [← h.node? hother]) hleads

/-- What can be opened at other paths is the same. A path that cannot be opened may fail in another
way. -/
theorem Gains.openRead (h : t.Gains places t') {path : String}
    (hother : ∀ here, t'.leadsTo path = .ok here → here ∉ places) :
    (t'.openRead path).toOption = (t.openRead path).toOption := by
  rw [openRead_eq, openRead_eq]
  cases hleads : t'.leadsTo path with
  | ok here =>
    have hnode := h.node? (hother here hleads)
    rw [h.leadsTo hleads (hother here hleads)]
    simp only [Except.bind, hnode]
  | error e =>
    cases hold : t.leadsTo path with
    | error e' => rfl
    | ok here =>
      rw [h.toExtends.leadsTo hold] at hleads
      cases hleads

end Gains

end FileTree
end HexBench
