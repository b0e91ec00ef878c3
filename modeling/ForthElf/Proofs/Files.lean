import ForthElf.Command.FileTree
import Mathlib.Data.List.TakeWhile

/-!
# Paths and files

* `Path.parts_intercalate`, `Path.intercalate_parts` — a path and its parts determine each other;
* `Path.HasExtension path` — the last name of a path has an extension;
* `FileTree.walk_put` — **writing a file changes no way along directories**;
* `FileTree.read_write_self` — what is written at the path of a file is read there;
* `FileTree.read_write_withoutExtension` — **a file stays what it is** when something is written to its path without the
  extension.
-/

namespace ForthElf

/-! ### The parts of a path -/

namespace Path

theorem splitSlash_ne_nil (cs : List Char) : splitSlash cs ≠ [] := by
  cases cs with
  | nil => simp [splitSlash]
  | cons c cs =>
    rw [splitSlash]
    split
    · simp
    · split <;> simp

theorem splitSlash_slash (cs : List Char) : splitSlash ('/' :: cs) = [] :: splitSlash cs := by
  rw [splitSlash]
  cases h : splitSlash cs with
  | nil => exact absurd h (splitSlash_ne_nil cs)
  | cons part parts => rfl

theorem splitSlash_append_slash {part : List Char} (h : '/' ∉ part) (cs : List Char) :
    splitSlash (part ++ '/' :: cs) = part :: splitSlash cs := by
  induction part with
  | nil => exact splitSlash_slash cs
  | cons c part ih =>
    obtain ⟨hc, hpart⟩ := not_or.mp (mt List.mem_cons.mpr h)
    rw [List.cons_append, splitSlash, ih hpart]
    exact if_neg (Ne.symm hc)

theorem splitSlash_of_not_mem {part : List Char} (h : '/' ∉ part) : splitSlash part = [part] := by
  induction part with
  | nil => rfl
  | cons c part ih =>
    obtain ⟨hc, hpart⟩ := not_or.mp (mt List.mem_cons.mpr h)
    rw [splitSlash, ih hpart]
    exact if_neg (Ne.symm hc)

theorem not_mem_of_mem_splitSlash {cs part : List Char} (h : part ∈ splitSlash cs) : '/' ∉ part := by
  induction cs generalizing part with
  | nil =>
    rw [List.mem_singleton.mp h]
    exact List.not_mem_nil
  | cons c cs ih =>
    by_cases hc : c = '/'
    · subst hc
      rw [splitSlash_slash] at h
      rcases List.mem_cons.mp h with rfl | h
      · exact List.not_mem_nil
      · exact ih h
    · rw [splitSlash] at h
      cases hcs : splitSlash cs with
      | nil => exact absurd hcs (splitSlash_ne_nil cs)
      | cons first rest =>
        rw [hcs] at h ih
        simp only [hc, if_false] at h
        rcases List.mem_cons.mp h with rfl | h
        · rw [List.mem_cons, not_or]
          exact ⟨Ne.symm hc, ih List.mem_cons_self⟩
        · exact ih (List.mem_cons_of_mem _ h)

theorem intercalate_splitSlash (cs : List Char) : ['/'].intercalate (splitSlash cs) = cs := by
  induction cs with
  | nil => rfl
  | cons c cs ih =>
    by_cases hc : c = '/'
    · subst hc
      rw [splitSlash_slash]
      obtain ⟨part, parts, hcs⟩ := List.exists_cons_of_ne_nil (splitSlash_ne_nil cs)
      rw [hcs, List.intercalate_cons_cons, ← hcs, ih]
      rfl
    · rw [splitSlash]
      cases hcs : splitSlash cs with
      | nil => exact absurd hcs (splitSlash_ne_nil cs)
      | cons part parts =>
        rw [hcs] at ih
        simp only [hc, if_false]
        cases parts with
        | nil => simpa using ih
        | cons part' parts =>
          rw [List.intercalate_cons_cons] at ih ⊢
          rw [← ih]
          rfl

theorem splitSlash_intercalate {parts : List (List Char)} (hne : parts ≠ []) (h : ∀ part ∈ parts, '/' ∉ part) :
    splitSlash (['/'].intercalate parts) = parts := by
  induction parts with
  | nil => exact absurd rfl hne
  | cons part parts ih =>
    obtain ⟨hpart, hparts⟩ := List.forall_mem_cons.mp h
    cases parts with
    | nil => simpa using splitSlash_of_not_mem hpart
    | cons part' parts =>
      rw [List.intercalate_cons_cons, List.append_assoc, List.singleton_append, splitSlash_append_slash hpart,
        ih (List.cons_ne_nil _ _) hparts]

theorem splitSlash_concat_slash (cs : List Char) : splitSlash (cs ++ ['/']) = splitSlash cs ++ [[]] := by
  induction cs with
  | nil => rfl
  | cons c cs ih =>
    rw [List.cons_append, splitSlash, ih, splitSlash]
    cases h : splitSlash cs with
    | nil => exact absurd h (splitSlash_ne_nil cs)
    | cons part parts =>
      dsimp only [List.cons_append]
      split <;> rfl

theorem parts_ne_nil (path : String) : parts path ≠ [] := by
  simpa [parts] using splitSlash_ne_nil path.toList

theorem not_mem_of_mem_parts {path part : String} (h : part ∈ parts path) : '/' ∉ part.toList := by
  obtain ⟨cs, hcs, rfl⟩ := List.mem_map.mp h
  rw [String.toList_ofList]
  exact not_mem_of_mem_splitSlash hcs

theorem intercalate_parts (path : String) : "/".intercalate (parts path) = path := by
  rw [← String.toList_inj, String.toList_intercalate, parts, List.map_map]
  have hid : String.toList ∘ String.ofList = id := funext fun cs => String.toList_ofList
  rw [hid, List.map_id]
  exact intercalate_splitSlash path.toList

theorem parts_intercalate {names : List String} (hne : names ≠ []) (h : ∀ name ∈ names, '/' ∉ name.toList) :
    parts ("/".intercalate names) = names := by
  have hsplit : splitSlash ("/".intercalate names).toList = names.map String.toList := by
    rw [String.toList_intercalate]
    refine splitSlash_intercalate (by simpa using hne) ?_
    simpa using h
  rw [parts, hsplit, List.map_map]
  have hid : String.ofList ∘ String.toList = id := funext fun name => String.ofList_toList
  rw [hid, List.map_id]

theorem head?_ne_slash {cs : List Char} (h : '/' ∉ cs) : cs.head? ≠ some '/' := fun hhead =>
  h (List.mem_of_mem_head? hhead)

theorem isAbsolute_intercalate {front : List String} {name : String} (hfront : ∀ part ∈ front, '/' ∉ part.toList)
    (hname : '/' ∉ name.toList) : isAbsolute ("/".intercalate (front ++ [name])) = (front.head? == some "") := by
  rw [isAbsolute, String.toList_intercalate, List.map_append]
  cases front with
  | nil => simpa using head?_ne_slash hname
  | cons part front =>
    obtain ⟨next, rest, hrest⟩ : ∃ next rest, front.map String.toList ++ [name].map String.toList = next :: rest :=
      List.exists_cons_of_ne_nil (by simp)
    rw [List.map_cons, List.cons_append, hrest, List.intercalate_cons_cons, List.head?_cons]
    cases hpart : part.toList with
    | nil =>
      have : part = "" := String.toList_inj.mp hpart
      simp [this]
    | cons c cs =>
      have hc : c ≠ '/' := by
        have := head?_ne_slash (hfront part List.mem_cons_self)
        simpa [hpart] using this
      have hne : part ≠ "" := by
        rintro rfl
        cases hpart
      have hpart' : (part == "") = false := by simpa using hne
      simp [hc, hpart']

/-! ### Extensions -/

def lastName (path : String) : String :=
  (parts path).getLast (parts_ne_nil path)

theorem dropLast_parts_append (path : String) : (parts path).dropLast ++ [lastName path] = parts path :=
  List.dropLast_concat_getLast (parts_ne_nil path)

theorem reverse_parts (path : String) : (parts path).reverse = lastName path :: (parts path).dropLast.reverse := by
  have h := congrArg List.reverse (dropLast_parts_append path)
  rw [List.reverse_append] at h
  exact h.symm

theorem lastName_of_endsInSlash {path : String} (h : endsInSlash path = true) : lastName path = "" := by
  obtain ⟨cs, hcs⟩ := List.getLast?_eq_some_iff.mp (beq_iff_eq.mp h)
  have hparts : parts path = (splitSlash cs).map String.ofList ++ [""] := by
    rw [parts, hcs, splitSlash_concat_slash, List.map_append]
    rfl
  simp [lastName, hparts]

/-- The last name has a dot that is not its first character; the name that leads one directory up has no extension. -/
def HasExtension (path : String) : Prop :=
  lastName path ≠ ".." ∧ ∃ front back, front ≠ [] ∧ (lastName path).toList = front ++ '.' :: back

theorem stem_eq {name : String} {front back : List Char} (hname : name.toList = front ++ '.' :: back)
    (hback : '.' ∉ back) : stem name = if front = [] then name else String.ofList front := by
  have hdrop : name.toList.reverse.dropWhile (· != '.') = '.' :: front.reverse := by
    rw [hname, List.reverse_append, List.reverse_cons, List.append_assoc, List.singleton_append,
      List.dropWhile_append_of_pos]
    · rfl
    · intro c hc
      have : c ≠ '.' := fun hdot => hback (hdot ▸ List.mem_reverse.mp hc)
      simpa using this
  simp only [stem, hdrop, List.isEmpty_reverse, List.reverse_reverse, List.isEmpty_iff]

theorem exists_last_dot {cs : List Char} (h : '.' ∈ cs) : ∃ front back, cs = front ++ '.' :: back ∧ '.' ∉ back := by
  obtain ⟨back, front, heq, hback⟩ := List.eq_append_cons_of_mem (List.mem_reverse.mpr h)
  refine ⟨front.reverse, back.reverse, ?_, by simpa using hback⟩
  rw [← List.reverse_reverse cs, heq]
  simp

theorem stem_eq_self {name : String} (h : ¬∃ front back, front ≠ [] ∧ name.toList = front ++ '.' :: back) :
    stem name = name := by
  by_cases hdot : '.' ∈ name.toList
  · obtain ⟨front, back, hname, hback⟩ := exists_last_dot hdot
    rw [stem_eq hname hback]
    exact if_pos (Decidable.byContradiction fun hfront => h ⟨front, back, hfront, hname⟩)
  · have hdrop : name.toList.reverse.dropWhile (· != '.') = [] := by
      rw [List.dropWhile_eq_nil_iff]
      intro c hc
      have : c ≠ '.' := fun hc' => hdot (hc' ▸ List.mem_reverse.mp hc)
      simpa using this
    simp only [stem, hdrop]

/-- A name with an extension loses it and stays a name. -/
theorem base_of_dot {name : String} (hup : name ≠ "..") {front back : List Char} (hfront : front ≠ [])
    (hname : name.toList = front ++ '.' :: back) :
    base name ≠ name ∧ isVoid (base name) = false ∧ ('/' ∉ name.toList → '/' ∉ (base name).toList) := by
  have hdot : '.' ∈ name.toList := by simp [hname]
  obtain ⟨front', back', hname', hback'⟩ := exists_last_dot hdot
  have hfront' : front' ≠ [] := by
    rintro rfl
    -- The last dot would be the first character, and another one stands behind it.
    obtain ⟨c, front, rfl⟩ := List.exists_cons_of_ne_nil hfront
    rw [hname] at hname'
    obtain ⟨-, hrest⟩ := List.cons.inj hname'
    exact hback' (by simp [← hrest])
  have hstem : stem name = String.ofList front' := by rw [stem_eq hname' hback', if_neg hfront']
  unfold base
  rw [hstem]
  split
  · exact ⟨Ne.symm hup, by decide, fun _ => by decide⟩
  · next hbase =>
    refine ⟨fun heq => ?_, ?_, fun hslash => ?_⟩
    · have hlength := congrArg (·.toList.length) heq
      simp [hname'] at hlength
    · have hne : String.ofList front' ≠ "" := by simpa using hfront'
      simp [isVoid, hne, hbase]
    · rw [String.toList_ofList]
      intro hmem
      exact hslash (by simp [hname', hmem])

theorem not_mem_lastName (path : String) : '/' ∉ (lastName path).toList :=
  not_mem_of_mem_parts (List.getLast_mem _)

theorem HasExtension.base {path : String} (h : HasExtension path) :
    base (lastName path) ≠ lastName path ∧ isVoid (base (lastName path)) = false ∧
      '/' ∉ (base (lastName path)).toList := by
  obtain ⟨hup, front, back, hfront, hname⟩ := h
  obtain ⟨hne, hbase, hslash⟩ := base_of_dot hup hfront hname
  exact ⟨hne, hbase, hslash (not_mem_lastName path)⟩

section LastName

variable {path : String} (hvoid : isVoid (lastName path) = false)

include hvoid

theorem withoutExtension_eq : withoutExtension path =
    if lastName path = ".." then path else "/".intercalate ((parts path).dropLast ++ [base (lastName path)]) := by
  rw [withoutExtension, reverse_parts, List.dropWhile_cons_of_neg (by simp [hvoid])]
  simp

theorem withoutExtension_eq_self (h : ¬HasExtension path) : withoutExtension path = path := by
  rw [withoutExtension_eq hvoid]
  split
  · rfl
  · next hup =>
    have hstem : stem (lastName path) = lastName path := stem_eq_self fun hdot => h ⟨hup, hdot⟩
    have hbase : base (lastName path) = lastName path := by
      rw [base, hstem, if_neg]
      intro hdot
      rw [hdot] at hvoid
      exact absurd hvoid (by decide)
    rw [hbase, dropLast_parts_append, intercalate_parts]

/-- The path without the extension has the same directories. -/
theorem parts_withoutExtension (h : HasExtension path) :
    parts (withoutExtension path) = (parts path).dropLast ++ [base (lastName path)] := by
  rw [withoutExtension_eq hvoid, if_neg h.1]
  refine parts_intercalate (by simp) fun part hpart => ?_
  rcases List.mem_append.mp hpart with hpart | hpart
  · exact not_mem_of_mem_parts (List.dropLast_subset _ hpart)
  · rw [List.mem_singleton.mp hpart]
    exact h.base.2.2

theorem lastName_withoutExtension (h : HasExtension path) :
    lastName (withoutExtension path) = base (lastName path) := by
  simp [lastName, parts_withoutExtension hvoid h]

theorem isAbsolute_withoutExtension (h : HasExtension path) :
    isAbsolute (withoutExtension path) = isAbsolute path := by
  have hdirs : ∀ part ∈ (parts path).dropLast, '/' ∉ part.toList := fun part hpart =>
    not_mem_of_mem_parts (List.dropLast_subset _ hpart)
  have hself := isAbsolute_intercalate hdirs (not_mem_lastName path)
  rw [dropLast_parts_append, intercalate_parts] at hself
  rw [withoutExtension_eq hvoid, if_neg h.1, isAbsolute_intercalate hdirs h.base.2.2, hself]

end LastName

end Path

/-! ### Files at other places -/

namespace FileTree

variable {t t' : FileTree} {place : Place} {node : Node}

theorem lookup_map_replace (entries : List (Place × Node)) (place : Place) (node : Node) {q : Place} (h : q ≠ place) :
    (entries.map fun entry => if entry.1 = place then (place, node) else entry).lookup q = entries.lookup q := by
  induction entries with
  | nil => rfl
  | cons entry entries ih =>
    obtain ⟨key, old⟩ := entry
    by_cases hkey : key = place
    · have hq : (q == place) = false := by simpa using h
      simp [hkey, List.lookup_cons, hq, ih]
    · simp [hkey, List.lookup_cons, ih]

theorem lookup_map_self {entries : List (Place × Node)} (place : Place) (node : Node)
    (h : (entries.lookup place).isSome) :
    (entries.map fun entry => if entry.1 = place then (place, node) else entry).lookup place = some node := by
  induction entries with
  | nil => cases h
  | cons entry entries ih =>
    obtain ⟨key, old⟩ := entry
    by_cases hkey : key = place
    · simp [hkey]
    · have hplace : (place == key) = false := by simpa using Ne.symm hkey
      simp only [List.lookup_cons, hplace] at h
      simp [hkey, List.lookup_cons, hplace, ih h]

theorem get?_put_of_ne (t : FileTree) (place : Place) (node : Node) {q : Place} (h : q ≠ place) :
    (t.put place node).get? q = t.get? q := by
  unfold get? put
  split
  · rfl
  · split
    · exact lookup_map_replace t.nodes place node h
    · have hq : (q == place) = false := by simpa using h
      simp [List.lookup_append, List.lookup_cons, hq]

theorem get?_put_self (t : FileTree) {place : Place} (node : Node) (h : place ≠ []) :
    (t.put place node).get? place = some node := by
  unfold get? put
  rw [if_neg h]
  split
  · next hsome => exact lookup_map_self place node hsome
  · next hnone =>
    have hlookup : t.nodes.lookup place = none := Option.not_isSome_iff_eq_none.mp hnone
    simp [List.lookup_append, hlookup]

/-! ### Ways along directories -/

theorem walk_append (t : FileTree) (q : Place) (front parts : List String) :
    t.walk q (front ++ parts) = (t.walk q front).bind fun mid => t.walk mid parts := by
  induction front generalizing q with
  | nil => rfl
  | cons part front ih =>
    rw [List.cons_append, walk, walk]
    cases t.get? q with
    | none => rfl
    | some found =>
      cases found with
      | file _ _ => rfl
      | directory =>
        dsimp only
        split
        · exact ih q
        · cases enter q part with
          | ok next => exact ih next
          | error fault => rfl

theorem get?_put_of_directory {q : Place} (h : t.get? q = some .directory) (hplace : t.get? place ≠ some .directory)
    (node : Node) : (t.put place node).get? q = some .directory := by
  rw [get?_put_of_ne]
  · exact h
  · rintro rfl
    exact hplace h

/-- **Writing a file changes no way along directories.** -/
theorem walk_put {q q' : Place} {parts : List String} (h : t.walk q parts = .ok q')
    (hplace : t.get? place ≠ some .directory) (node : Node) : (t.put place node).walk q parts = .ok q' := by
  induction parts generalizing q with
  | nil => exact h
  | cons part parts ih =>
    rw [walk] at h ⊢
    cases hnode : t.get? q with
    | none =>
      rw [hnode] at h
      cases h
    | some found =>
      rw [hnode] at h
      cases found with
      | file _ _ => cases h
      | directory =>
        rw [get?_put_of_directory hnode hplace]
        dsimp only at h ⊢
        split at h
        · next hvoid =>
          rw [if_pos hvoid]
          exact ih h
        · next hvoid =>
          rw [if_neg hvoid]
          cases henter : enter q part with
          | ok next =>
            rw [henter] at h
            exact ih h
          | error fault =>
            rw [henter] at h
            cases h

theorem workingDirectory_put (t : FileTree) (place : Place) (node : Node) :
    (t.put place node).workingDirectory = t.workingDirectory := by
  unfold put
  split <;> rfl

theorem start_put (t : FileTree) (place : Place) (node : Node) (path : String) :
    (t.put place node).start path = t.start path := by
  rw [start, start, workingDirectory_put]

theorem walk_of_follow {path : String} {parts : List String} {q : Place} (h : t.follow path parts = .ok q) :
    path.utf8ByteSize ≤ maxPath ∧ t.walk (t.start path) parts = .ok q := by
  unfold follow at h
  split at h
  · cases h
  · next hsize => exact ⟨Nat.le_of_not_lt hsize, h⟩

theorem follow_of_walk {path : String} {parts : List String} {q : Place} (hsize : path.utf8ByteSize ≤ maxPath)
    (h : t.walk (t.start path) parts = .ok q) : t.follow path parts = .ok q := by
  rw [follow, if_neg (Nat.not_lt.mpr hsize)]
  exact h

theorem exists_step_of_walk {q q' : Place} {front : List String} {name : String}
    (h : t.walk q (front ++ [name]) = .ok q') :
    ∃ mid, t.walk q front = .ok mid ∧ t.get? mid = some .directory ∧
      if Path.isVoid name then q' = mid else enter mid name = .ok q' := by
  rw [walk_append] at h
  cases hfront : t.walk q front with
  | error fault =>
    rw [hfront] at h
    cases h
  | ok mid =>
    rw [hfront] at h
    change t.walk mid [name] = .ok q' at h
    rw [walk] at h
    split at h
    · cases h
    · cases h
    · next hnode =>
      refine ⟨mid, rfl, hnode, ?_⟩
      split at h
      · next hvoid =>
        rw [if_pos hvoid]
        cases h
        rfl
      · next hvoid =>
        rw [if_neg hvoid]
        split at h
        · next next hnext =>
          cases h
          exact hnext
        · cases h

theorem exists_enter_of_walk {q q' : Place} {front : List String} {name : String}
    (hvoid : Path.isVoid name = false) (h : t.walk q (front ++ [name]) = .ok q') :
    ∃ mid, t.walk q front = .ok mid ∧ enter mid name = .ok q' := by
  obtain ⟨mid, hmid, -, hstep⟩ := exists_step_of_walk h
  rw [hvoid] at hstep
  exact ⟨mid, hmid, hstep⟩

/-- A way that ends with a void part ends at a directory. -/
theorem directory_of_walk_void {q q' : Place} {front : List String} {name : String}
    (hvoid : Path.isVoid name = true) (h : t.walk q (front ++ [name]) = .ok q') :
    t.get? q' = some .directory := by
  obtain ⟨mid, -, hnode, hstep⟩ := exists_step_of_walk h
  rw [if_pos hvoid] at hstep
  rw [hstep]
  exact hnode

theorem enter_eq_cons {parent q : Place} {name : String} (hup : name ≠ "..") (h : enter parent name = .ok q) :
    q = name :: parent := by
  unfold enter at h
  rw [if_neg hup] at h
  split at h
  · cases h
  · cases h
    rfl

/-- A name does not lead back to a place of another name. -/
theorem ne_of_enter {parent q : Place} {name other : String} (hname : other ≠ name)
    (h : enter parent other = .ok q) : q ≠ name :: parent := by
  unfold enter at h
  split at h
  · cases h
  · split at h
    · cases h
      intro heq
      have hlength := congrArg List.length heq
      simp only [List.length_tail, List.length_cons] at hlength
      omega
    · cases h
      intro heq
      exact hname (List.cons.inj heq).1

/-! ### Reading and writing at a path -/

theorem exists_place_of_read {path : String} {content : List UInt8} (h : t.read path = .ok content) :
    ∃ place executable, t.follow path (Path.parts path) = .ok place ∧
      t.get? place = some (.file content executable) ∧ Path.isVoid (Path.lastName path) = false := by
  unfold read at h
  cases hfollow : t.follow path (Path.parts path) with
  | error fault =>
    rw [hfollow] at h
    cases h
  | ok q =>
    rw [hfollow] at h
    dsimp only at h
    cases hnode : t.get? q with
    | none =>
      rw [hnode] at h
      cases h
    | some found =>
      rw [hnode] at h
      cases found with
      | directory => cases h
      | file bytes executable =>
        cases h
        refine ⟨q, executable, rfl, hnode, ?_⟩
        refine Bool.eq_false_iff.mpr fun hvoid => ?_
        have hwalk := (walk_of_follow hfollow).2
        rw [← Path.dropLast_parts_append] at hwalk
        rw [directory_of_walk_void hvoid hwalk] at hnode
        cases hnode

theorem read_eq_of_follow {path : String} {place : Place} {content : List UInt8} {executable : Bool}
    (hfollow : t.follow path (Path.parts path) = .ok place)
    (hnode : t.get? place = some (.file content executable)) : t.read path = .ok content := by
  rw [read, hfollow]
  dsimp only
  rw [hnode]

/-- A path whose last part is a name is written to where it is read. -/
theorem targetParts_eq {path : String} (hvoid : Path.isVoid (Path.lastName path) = false) :
    targetParts path = Path.parts path := by
  have hname : Path.lastName path ≠ "" := by
    intro hempty
    rw [hempty] at hvoid
    cases hvoid
  have hslash : Path.endsInSlash path = false :=
    Bool.eq_false_iff.mpr fun hslash => hname (Path.lastName_of_endsInSlash hslash)
  unfold targetParts
  rw [hslash, Path.reverse_parts, List.dropWhile_cons_of_neg (by simpa using hname), ← Path.reverse_parts,
    List.reverse_reverse]
  rfl

theorem read_write_self {path : String} {content : List UInt8} (h : t.read path = .ok content) (image : List UInt8) :
    ∃ t', t.write path image = .ok t' ∧ t'.read path = .ok image := by
  obtain ⟨place, executable, hfollow, hnode, hvoid⟩ := exists_place_of_read h
  have hfile : t.get? place ≠ some .directory := by
    rw [hnode]
    nofun
  have hplace : t.writePlace path = .ok place := by
    rw [writePlace, targetParts_eq hvoid, hfollow]
    exact if_neg hfile
  have hroot : place ≠ [] := by
    rintro rfl
    exact hfile rfl
  refine ⟨t.put place (.file image true), by rw [write, hplace], ?_⟩
  obtain ⟨hsize, hwalk⟩ := walk_of_follow hfollow
  rw [← start_put t place (.file image true)] at hwalk
  exact read_eq_of_follow (follow_of_walk hsize (walk_put hwalk hfile _)) (get?_put_self t _ hroot)

theorem exists_place_of_write {path : String} {image : List UInt8} (h : t.write path image = .ok t') :
    ∃ place, t.follow path (targetParts path) = .ok place ∧ t.get? place ≠ some .directory ∧
      t' = t.put place (.file image true) := by
  unfold write writePlace at h
  cases hfollow : t.follow path (targetParts path) with
  | error fault =>
    rw [hfollow] at h
    cases h
  | ok q =>
    rw [hfollow] at h
    dsimp only at h
    by_cases hdirectory : t.get? q = some .directory
    · rw [if_pos hdirectory] at h
      cases h
    · rw [if_neg hdirectory] at h
      cases h
      exact ⟨q, rfl, hdirectory, rfl⟩

/-- **A path with an extension keeps its file** when something is written to the path without the extension. -/
theorem read_write_withoutExtension {path : String} {content image : List UInt8} (h : t.read path = .ok content)
    (hext : Path.HasExtension path) (hwrite : t.write (Path.withoutExtension path) image = .ok t') :
    t'.read path = .ok content := by
  obtain ⟨place, executable, hfollow, hnode, hvoid⟩ := exists_place_of_read h
  obtain ⟨target, htarget, hfree, rfl⟩ := exists_place_of_write hwrite
  obtain ⟨hsize, hwalk⟩ := walk_of_follow hfollow
  have hplaces : place ≠ target := by
    obtain ⟨hne, hbase, -⟩ := hext.base
    have hname : Path.isVoid (Path.lastName (Path.withoutExtension path)) = false := by
      rw [Path.lastName_withoutExtension hvoid hext]
      exact hbase
    -- Both names are looked up in the same directory.
    rw [← Path.dropLast_parts_append] at hwalk
    rw [targetParts_eq hname, Path.parts_withoutExtension hvoid hext] at htarget
    have hwalk' := (walk_of_follow htarget).2
    rw [start, Path.isAbsolute_withoutExtension hvoid hext] at hwalk'
    obtain ⟨mid, hmid, henter⟩ := exists_enter_of_walk hvoid hwalk
    obtain ⟨mid', hmid', henter'⟩ := exists_enter_of_walk hbase hwalk'
    obtain rfl : mid = mid' := Except.ok.inj (hmid.symm.trans hmid')
    obtain rfl := enter_eq_cons hext.1 henter
    exact Ne.symm (ne_of_enter hne henter')
  rw [← get?_put_of_ne t target (.file image true) hplaces] at hnode
  rw [← start_put t target (.file image true)] at hwalk
  exact read_eq_of_follow (follow_of_walk hsize (walk_put hwalk hfree _)) hnode

end FileTree

end ForthElf
