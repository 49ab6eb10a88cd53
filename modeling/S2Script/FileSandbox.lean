import S2Script.Json

/-! The directory of a plugin's files, and the relative paths that are joined under it: every path
stays in its plugin's directory, but two plugins may be given one directory. -/
namespace S2Script.FileSandbox

section Paths

/-- `Component` of a path. -/
inductive Component where
  | rootDir
  | curDir
  | parentDir
  | normal (name : Text)
deriving DecidableEq

/-- The component of a piece between separators, if it has one. -/
def component (piece : Text) : Option Component :=
  if piece = [] ∨ piece = ['.'] then none else if piece = ['.','.'] then some .parentDir else some (.normal piece)

/-- What a path begins with besides its pieces: the root, or the current directory. -/
def start (path : Text) : List Component :=
  if path.head? = some '/' then [.rootDir] else if (path.splitOn '/').head? = some ['.'] then [.curDir] else []

/-- `Path::components`. -/
def components (path : Text) : List Component := start path ++ (path.splitOn '/').filterMap component

/-- `PathBuf::push`: an absolute path replaces what is there. -/
def push (path segment : Text) : Text :=
  if segment.head? = some '/' then segment
  else if path = [] ∨ path.getLast? = some '/' then path ++ segment
  else path ++ '/' :: segment

end Paths

section Sandbox

def maxDepth : Nat := 8
def maxPath : Nat := 256

/-- The letters of a segment. Bytes past ASCII are none of them, so characters are as good as bytes. -/
def allowed (c : Char) : Bool := c.isAlphanum || c = '.' || c = '_' || c = '-'

def segmentOk (segment : Text) : Bool :=
  segment ≠ [] && segment ≠ ['.'] && segment ≠ ['.','.'] && segment.all allowed

/-- The loop of `sandbox_path`. -/
def pushSegments (out : Text) (depth : Nat) : List Text → Option Text
  | [] => some out
  | segment :: rest =>
    if !segmentOk segment || maxDepth < depth + 1 then none else pushSegments (push out segment) (depth + 1) rest

/-- `sandbox_path`; `debug` prints a path as the error shows it. -/
def sandboxPath (debug : String → String) (root : Text) (rel : String) (allowEmpty : Bool) : Except String Text :=
  if rel = "" then (if allowEmpty then .ok root else .error "InvalidPath: empty path")
  else if maxPath < rel.utf8ByteSize then .error "InvalidPath: path too long"
  else
    match pushSegments root 0 (rel.toList.splitOn '/') with
    | some out => .ok out
    | none => .error ("InvalidPath: " ++ debug rel)

/-- What a character of an id becomes. -/
def flatten (c : Char) : Char := if allowed c then c else '_'

/-- The directory of a plugin id. -/
def directory (pluginId : Text) : Text :=
  let seg := pluginId.map flatten
  if seg = [] ∨ seg.all (· = '.') then ['_'] else seg

/-- `plugin_root`. -/
def pluginRoot (dataDir : Text) (pluginId : String) : Text :=
  push (push dataDir "files".toList) (directory pluginId.toList)

end Sandbox

section Components

/-- A segment that is a component of its own. -/
structure Plain (segment : Text) : Prop where
  nonempty : segment ≠ []
  here : segment ≠ ['.']
  parent : segment ≠ ['.','.']
  whole : '/' ∉ segment

theorem Plain.component {segment : Text} (plain : Plain segment) : component segment = some (.normal segment) := by
  simp only [FileSandbox.component,plain.nonempty,plain.here,plain.parent,or_self,if_false]

theorem Plain.splitOn {segment : Text} (plain : Plain segment) : segment.splitOn '/' = [segment] :=
  List.splitOn_eq_singleton plain.whole

theorem Plain.head {segment : Text} (plain : Plain segment) : segment.head? ≠ some '/' := fun first =>
  plain.whole (List.mem_of_mem_head? first)

theorem splitOn_append (a b : Text) : (a ++ '/' :: b).splitOn '/' = a.splitOn '/' ++ b.splitOn '/' :=
  List.splitOnP_append_cons a b (by simp)

/-- What a path begins with is told from any text before a separator. -/
theorem start_append {path : Text} (nonempty : path ≠ []) (rest : Text) : start (path ++ '/' :: rest) = start path := by
  have first : (path ++ '/' :: rest).head? = path.head? := List.head?_append_of_ne_nil path nonempty
  have piece : ((path ++ '/' :: rest).splitOn '/').head? = (path.splitOn '/').head? := by
    simp only [splitOn_append]
    exact List.head?_append_of_ne_nil _ (List.splitOn_ne_nil '/' path)
  simp only [start,first,piece]

/-- A pushed segment is one more component. -/
theorem components_push (path segment : Text) (plain : Plain segment) :
    components (push path segment) = components path ++ [.normal segment] := by
  have last : (segment.splitOn '/').filterMap component = [.normal segment] := by
    simp only [plain.splitOn,List.filterMap_cons,plain.component,List.filterMap_nil]
  simp only [push,if_neg plain.head]
  by_cases empty : path = []
  · subst empty
    have bare : start segment = [] := by
      simp only [start,if_neg plain.head,plain.splitOn,List.head?_cons,Option.some.injEq,plain.here,if_false]
    simp only [true_or,if_true,List.nil_append,components,bare,last]
    rfl
  · by_cases closed : path.getLast? = some '/'
    · obtain ⟨front,rfl⟩ := List.getLast?_eq_some_iff.mp closed
      have joined : front ++ ['/'] ++ segment = front ++ '/' :: segment := by simp
      have same : start (front ++ '/' :: segment) = start (front ++ ['/']) := by
        by_cases root : front = []
        · subst root
          rfl
        · exact (start_append root segment).trans (start_append root []).symm
      have blank : (['/'] : Text).splitOn '/' = [[],[]] := rfl
      simp only [closed,or_true,if_true,joined,components,same,splitOn_append,List.filterMap_append,last,
        List.append_assoc,List.splitOn_nil,List.filterMap_cons,component,true_or,List.filterMap_nil,List.nil_append]
    · simp only [empty,closed,or_self,if_false,components,start_append empty,splitOn_append,List.filterMap_append,last,
        List.append_assoc]

end Components

section Segments

/-- The names of a relative path; the empty one has none. -/
def segments (rel : String) : List Text := if rel = "" then [] else rel.toList.splitOn '/'

theorem plain_of_ok {segment : Text} (ok : segmentOk segment = true) : Plain segment := by
  simp only [segmentOk,Bool.and_eq_true,decide_eq_true_eq] at ok
  refine ⟨ok.1.1.1,ok.1.1.2,ok.1.2,fun inside => ?_⟩
  exact absurd (List.all_eq_true.mp ok.2 '/' inside) (by decide)

/-- What `pushSegments` joins, it joins segment by segment, each one plain. -/
theorem pushSegments_ok : ∀ (rest : List Text) (out : Text) (depth : Nat) (path : Text),
    pushSegments out depth rest = some path → (∀ segment ∈ rest, Plain segment) ∧ path = rest.foldl push out
  | [],out,depth,path,pushed => by
    cases pushed
    exact ⟨fun segment member => absurd member List.not_mem_nil,rfl⟩
  | segment :: rest,out,depth,path,pushed => by
    simp only [pushSegments] at pushed
    split at pushed
    · cases pushed
    · next passed =>
      simp only [Bool.or_eq_true,Bool.not_eq_true',not_or,Bool.not_eq_false] at passed
      obtain ⟨later,joined⟩ := pushSegments_ok rest (push out segment) (depth + 1) path pushed
      refine ⟨fun other member => ?_,joined⟩
      rcases List.mem_cons.mp member with rfl | member
      · exact plain_of_ok passed.1
      · exact later other member

/-- An accepted path is its segments under the root. -/
theorem sandboxPath_ok {debug : String → String} {root : Text} {rel : String} {allowEmpty : Bool} {path : Text}
    (accepted : sandboxPath debug root rel allowEmpty = .ok path) :
    (∀ segment ∈ segments rel, Plain segment) ∧ path = (segments rel).foldl push root := by
  simp only [sandboxPath] at accepted
  by_cases empty : rel = ""
  · simp only [if_pos empty] at accepted
    split at accepted
    · cases accepted
      simp [segments,empty]
    · cases accepted
  · simp only [if_neg empty] at accepted
    split at accepted
    · cases accepted
    · split at accepted
      · next out pushed =>
        cases accepted
        simpa only [segments,if_neg empty] using pushSegments_ok _ root 0 path pushed
      · cases accepted

theorem components_foldl : ∀ (names : List Text) (out : Text), (∀ name ∈ names, Plain name) →
    components (names.foldl push out) = components out ++ names.map .normal
  | [],out,_ => (List.append_nil _).symm
  | name :: rest,out,plain => by
    have head := components_push out name (plain name List.mem_cons_self)
    have tail := components_foldl rest (push out name) fun other member => plain other (List.mem_cons_of_mem name member)
    simp only [List.foldl_cons,tail,head,List.map_cons,List.append_assoc,List.singleton_append]

end Segments

section Directories

theorem allowed_flatten (c : Char) : allowed (flatten c) = true := by
  simp only [flatten]
  split
  · assumption
  · rfl

theorem directory_plain (pluginId : Text) : Plain (directory pluginId) := by
  simp only [directory]
  split
  · exact ⟨by simp,by simp,by simp,by simp⟩
  · next solid =>
    simp only [not_or] at solid
    refine ⟨solid.1,fun same => ?_,fun same => ?_,fun inside => ?_⟩
    · exact solid.2 (by simp [same])
    · exact solid.2 (by simp [same])
    · obtain ⟨c,-,becomes⟩ := List.mem_map.mp inside
      exact absurd (becomes ▸ allowed_flatten c) (by decide)

/-- An underscore, or a character that becomes one. -/
def Folded (c : Char) : Prop := c = '_' ∨ allowed c = false

/-- Ids that have no name of their own: nothing, dots only, or one folded character. -/
def Nameless (pluginId : Text) : Prop :=
  pluginId = [] ∨ (∀ c ∈ pluginId, c = '.') ∨ ∃ c, pluginId = [c] ∧ Folded c

/-- Ids that are one character for character, but for folded characters, or that have no name. -/
def Alike (a b : Text) : Prop :=
  a.Forall₂ (fun c d => c = d ∨ (Folded c ∧ Folded d)) b ∨ (Nameless a ∧ Nameless b)

theorem flatten_eq_iff (c d : Char) : flatten c = flatten d ↔ c = d ∨ (Folded c ∧ Folded d) := by
  have underscore : ∀ c, flatten c = '_' ↔ Folded c := by
    intro c
    simp only [flatten,Folded]
    cases kind : allowed c <;> simp
  constructor
  · intro same
    by_cases left : Folded c
    · exact .inr ⟨left,(underscore d).mp (same.symm.trans ((underscore c).mpr left))⟩
    · have right : ¬Folded d := fun folded => left ((underscore c).mp (same.trans ((underscore d).mpr folded)))
      simp only [Folded,not_or,Bool.not_eq_false] at left right
      simpa only [flatten,left.2,right.2,if_true,true_or] using Or.inl same
  · rintro (rfl | ⟨left,right⟩)
    · rfl
    · exact ((underscore c).mpr left).trans ((underscore d).mpr right).symm

theorem map_flatten_eq_iff (a b : Text) :
    a.map flatten = b.map flatten ↔ a.Forall₂ (fun c d => c = d ∨ (Folded c ∧ Folded d)) b := by
  simp only [← List.forall₂_eq_eq_eq,List.forall₂_map_left_iff,List.forall₂_map_right_iff,flatten_eq_iff]

theorem flatten_dot (c : Char) : flatten c = '.' ↔ c = '.' := by
  have solid : ¬Folded '.' := by
    rintro (same | outside)
    · exact absurd same (by decide)
    · exact absurd outside (by decide)
  exact (flatten_eq_iff c '.').trans ⟨fun cases => cases.resolve_right fun both => solid both.2,.inl⟩

theorem flatten_underscore (c : Char) : flatten c = '_' ↔ Folded c := by
  have itself : Folded '_' := .inl rfl
  refine (flatten_eq_iff c '_').trans ⟨?_,fun folded => .inr ⟨folded,itself⟩⟩
  rintro (rfl | both)
  · exact itself
  · exact both.1

theorem directory_nameless (a : Text) : directory a = ['_'] ↔ Nameless a := by
  have dots : (a.map flatten).all (· = '.') = true ↔ ∀ c ∈ a, c = '.' := by
    simp only [List.all_map,List.all_eq_true,Function.comp_apply,decide_eq_true_eq,flatten_dot]
  have folded : a.map flatten = ['_'] ↔ ∃ c, a = [c] ∧ Folded c := by
    simp only [List.map_eq_singleton_iff,flatten_underscore]
  simp only [directory,List.map_eq_nil_iff,dots,Nameless]
  split
  · next blank => simp only [← or_assoc,blank,true_or]
  · next solid =>
    simp only [folded]
    exact ⟨fun one => .inr (.inr one),fun cases => by simpa only [← or_assoc,solid,false_or] using cases⟩

/-- Two ids share a directory if they are alike. -/
theorem directory_eq_iff (a b : Text) : directory a = directory b ↔ Alike a b := by
  have named : ∀ a : Text, ¬Nameless a → directory a = a.map flatten := by
    intro a name
    simp only [directory]
    split
    · next blank =>
      exact absurd ((directory_nameless a).mp (by simp only [directory,if_pos blank])) name
    · rfl
  have along : a.map flatten = b.map flatten → directory a = directory b := fun same => by simp only [directory,same]
  simp only [Alike,← map_flatten_eq_iff]
  constructor
  · intro same
    by_cases left : Nameless a
    · exact .inr ⟨left,(directory_nameless b).mp (same.symm.trans ((directory_nameless a).mpr left))⟩
    · have right : ¬Nameless b := fun nameless =>
        left ((directory_nameless a).mp (same.trans ((directory_nameless b).mpr nameless)))
      exact .inl ((named a left).symm.trans (same.trans (named b right)))
  · rintro (same | ⟨left,right⟩)
    · exact along same
    · exact ((directory_nameless a).mpr left).trans ((directory_nameless b).mpr right).symm

end Directories

section Isolation

/-- A path of names alone below the `files` directory. -/
def Confined (dataDir path : Text) : Prop :=
  ∃ name names, (∀ n ∈ name :: names, Plain n) ∧ path = ("files".toList :: name :: names).foldl push dataDir ∧
    components path = components dataDir ++ ("files".toList :: name :: names).map .normal

/-- Neither path is the other one, above it or below it. -/
def Apart (p q : Text) : Prop := ¬components p <+: components q ∧ ¬components q <+: components p

theorem files_plain : Plain "files".toList := ⟨by simp,by simp,by simp,by simp⟩

theorem sandboxPath_components {debug : String → String} {dataDir : Text} {id rel : String} {allowEmpty : Bool}
    {path : Text} (accepted : sandboxPath debug (pluginRoot dataDir id) rel allowEmpty = .ok path) :
    components path = components dataDir ++
      ("files".toList :: directory id.toList :: segments rel).map .normal := by
  obtain ⟨plain,rfl⟩ := sandboxPath_ok accepted
  refine components_foldl ("files".toList :: directory id.toList :: segments rel) dataDir ?_
  intro name member
  rcases List.mem_cons.mp member with rfl | member
  · exact files_plain
  · rcases List.mem_cons.mp member with rfl | member
    · exact directory_plain _
    · exact plain name member

theorem confined {debug : String → String} {dataDir : Text} {id rel : String} {allowEmpty : Bool} {path : Text}
    (accepted : sandboxPath debug (pluginRoot dataDir id) rel allowEmpty = .ok path) : Confined dataDir path := by
  refine ⟨directory id.toList,segments rel,?_,(sandboxPath_ok accepted).2,sandboxPath_components accepted⟩
  intro name member
  rcases List.mem_cons.mp member with rfl | member
  · exact directory_plain _
  · exact (sandboxPath_ok accepted).1 name member

theorem normal_prefix_iff (a b : List Text) : a.map Component.normal <+: b.map Component.normal ↔ a <+: b := by
  refine ⟨fun starts => ?_,fun starts => starts.map _⟩
  obtain ⟨rest,joined⟩ := starts
  obtain ⟨front,back,rfl,same,-⟩ := List.map_eq_append_iff.mp joined.symm
  have injective : Function.Injective Component.normal := fun _ _ equal => Component.normal.inj equal
  exact ⟨back,congrArg (· ++ back) (List.map_injective_iff.mpr injective same).symm⟩

/-- Paths of plugins are confined, and lie apart unless the ids are alike and one relative path begins
the other. -/
theorem sandboxes_apart_iff {debug : String → String} {dataDir : Text} {id other rel rel' : String}
    {allowEmpty allowEmpty' : Bool} {path path' : Text}
    (first : sandboxPath debug (pluginRoot dataDir id) rel allowEmpty = .ok path)
    (second : sandboxPath debug (pluginRoot dataDir other) rel' allowEmpty' = .ok path') :
    Confined dataDir path ∧ Confined dataDir path' ∧ Apart path path' ↔
      ¬(Alike id.toList other.toList ∧ (segments rel <+: segments rel' ∨ segments rel' <+: segments rel)) := by
  have inside := confined first
  have inside' := confined second
  have starts : components path <+: components path' ↔
      Alike id.toList other.toList ∧ segments rel <+: segments rel' := by
    simp only [sandboxPath_components first,sandboxPath_components second,List.prefix_append_right_inj,
      normal_prefix_iff,List.cons_prefix_cons,true_and,directory_eq_iff]
  have starts' : components path' <+: components path ↔
      Alike id.toList other.toList ∧ segments rel' <+: segments rel := by
    simp only [sandboxPath_components first,sandboxPath_components second,List.prefix_append_right_inj,
      normal_prefix_iff,List.cons_prefix_cons,true_and,eq_comm (a := directory other.toList),directory_eq_iff]
  simp only [inside,inside',true_and,Apart,starts,starts',and_or_left,not_or]

/-- Two scoped ids with one directory. -/
theorem scoped_ids_collide :
    sandboxPath id (pluginRoot "/srv".toList "@a/b_c") "bans.json" false = .ok "/srv/files/_a_b_c/bans.json".toList ∧
      sandboxPath id (pluginRoot "/srv".toList "@a_b/c") "bans.json" false = .ok "/srv/files/_a_b_c/bans.json".toList ∧
      ¬Apart "/srv/files/_a_b_c/bans.json".toList "/srv/files/_a_b_c/bans.json".toList := by
  refine ⟨by decide,by decide,fun apart => apart.1 List.prefix_rfl⟩

theorem unlike_ids_apart : Apart "/srv/files/chat/log".toList "/srv/files/bans/log".toList := by
  have first : sandboxPath id (pluginRoot "/srv".toList "chat") "log" false = .ok "/srv/files/chat/log".toList := by decide
  have second : sandboxPath id (pluginRoot "/srv".toList "bans") "log" true = .ok "/srv/files/bans/log".toList := by decide
  have unlike : ¬Alike "chat".toList "bans".toList := (directory_eq_iff _ _).not.mp (by decide)
  exact ((sandboxes_apart_iff first second).mpr fun both => unlike both.1).2.2

end Isolation

end S2Script.FileSandbox
