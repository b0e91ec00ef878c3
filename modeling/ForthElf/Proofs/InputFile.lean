import ForthElf.Command.Run
import ForthElf.Proofs.Compilation
import ForthElf.Proofs.Files

/-!
# The input file of a run

Without the output option, a program goes to the path of its source without the extension.

* `Request.WithoutOutput arguments` — the output option is not among the arguments;
* `Request.output_of_parse` — the output of an argument list without the output option;
* `Command.tree_run` — the files behind a run;
* `input_kept` — **a run keeps its input if the name of the input has an extension**, and changes no file if there is
  no program to write.
-/

namespace ForthElf

/-! ### Argument lists without the output option -/

namespace Request

/-- Whether an argument gives the output option, by its long name or among short ones. -/
def givesOutput (argument : String) : Bool :=
  match argument.toList with
  | '-' :: '-' :: text => text.takeWhile (· != '=') == "output".toList
  | '-' :: letters => letters.contains 'o'
  | _ => false

/-- None of the arguments in front of `--` gives the output option. -/
def WithoutOutput (arguments : List String) : Prop :=
  ∀ argument ∈ arguments.takeWhile (· != "--"), givesOutput argument = false

instance (arguments : List String) : Decidable (WithoutOutput arguments) :=
  inferInstanceAs (Decidable (∀ argument ∈ arguments.takeWhile (· != "--"), givesOutput argument = false))

theorem splitEquals_fst (text : List Char) : (splitEquals text).1 = text.takeWhile (· != '=') := by
  fun_induction splitEquals text with
  | case1 => rfl
  | case2 value => rfl
  | case3 c cs hc ih =>
    rw [List.takeWhile_cons_of_pos (by simpa using hc), ih]

variable {draft draft' : Draft} {pending : Option Setting} {argument text : String}

theorem exists_of_bind_eq_ok {α β : Type} {x : Except UsageFault α} {f : α → Except UsageFault β} {b : β}
    (h : (x >>= f) = .ok b) : ∃ a, x = .ok a ∧ f a = .ok b := by
  cases x with
  | error fault => cases h
  | ok a => exact ⟨a, rfl, h⟩

theorem output_assign {setting : Setting} (h : assign draft setting text = .ok draft') (hs : setting ≠ .output) :
    draft'.output = draft.output := by
  cases setting with
  | output => exact absurd rfl hs
  | stackSize | codeBase | dataBase =>
    obtain ⟨value, -, hdraft⟩ := exists_of_bind_eq_ok h
    cases hdraft
    rfl

theorem eq_of_raise {option : String} {old : Bool} (h : raise option old draft = .ok (.more draft' pending)) :
    draft' = draft ∧ pending = none := by
  unfold raise at h
  split at h
  · cases h
  · cases h
    exact ⟨rfl, rfl⟩

theorem output_obey {option : String} {flag : Flag} (h : obey draft option flag = .ok (.more draft' pending)) :
    draft'.output = draft.output ∧ pending = none := by
  cases flag with
  | verbose =>
    cases h
    exact ⟨rfl, rfl⟩
  | version | help => cases h
  | bestEffort | forwardRefs | listing | stats =>
    obtain ⟨rfl, rfl⟩ := eq_of_raise h
    exact ⟨rfl, rfl⟩

theorem output_readShort {letters : List Char} (h : readShort draft letters = .ok (.more draft' pending))
    (ho : 'o' ∉ letters) : draft'.output = draft.output ∧ pending ≠ some .output := by
  induction letters generalizing draft with
  | nil =>
    cases h
    exact ⟨rfl, nofun⟩
  | cons c letters ih =>
    obtain ⟨hc, hletters⟩ := not_or.mp (mt List.mem_cons.mpr ho)
    rw [readShort] at h
    split at h
    · cases h
    · next setting hsetting =>
      -- The only short option with a value is that for the output.
      exfalso
      unfold short? at hsetting
      split at hsetting <;> first | exact hc rfl | cases hsetting
    · next flag hflag =>
      split at h
      · next draft'' pending' hobey =>
        obtain ⟨houtput, -⟩ := output_obey hobey
        rw [← houtput]
        exact ih h hletters
      · next hother =>
        exact absurd h (hother draft' pending)

theorem output_readLong {name : List Char} (h : readLong draft name = .ok (.more draft' pending))
    (ho : name.takeWhile (· != '=') ≠ "output".toList) : draft'.output = draft.output ∧ pending ≠ some .output := by
  rw [← splitEquals_fst] at ho
  have hsetting : ∀ {setting}, long? (String.ofList (splitEquals name).1) = some (.inr setting) →
      setting ≠ .output := by
    rintro setting hlong rfl
    unfold long? at hlong
    split at hlong <;> simp at hlong
    next heq => exact ho (by rw [← heq, String.toList_ofList])
  unfold readLong at h
  dsimp only at h
  split at h
  · cases h
  · cases h
  · obtain ⟨houtput, rfl⟩ := output_obey h
    exact ⟨houtput, nofun⟩
  · next setting hlong _ =>
    cases h
    exact ⟨rfl, fun heq => hsetting hlong (Option.some.inj heq)⟩
  · next setting value hlong _ =>
    cases hassign : assign draft setting (String.ofList value) with
    | error fault =>
      rw [hassign] at h
      cases h
    | ok draft'' =>
      rw [hassign] at h
      cases h
      exact ⟨output_assign hassign (hsetting hlong), nofun⟩

theorem output_readArgument (h : readArgument draft argument = .ok (.more draft' pending))
    (ho : givesOutput argument = false) : draft'.output = draft.output ∧ pending ≠ some .output := by
  unfold readArgument at h
  unfold givesOutput at ho
  split at h
  · next name hargument =>
    rw [hargument] at ho
    exact output_readLong h (by simpa using ho)
  · next c letters hc hargument =>
    rw [hargument] at ho
    refine output_readShort h ?_
    split at ho
    · next heq => simp_all
    · next heq =>
      obtain ⟨-, rfl⟩ := List.cons.inj heq
      simpa using ho
    · next hdash => exact absurd rfl (hdash _)
  · unfold assignInput at h
    split at h
    · cases h
    · split at h
      · cases h
      · cases h
        exact ⟨rfl, nofun⟩

theorem obey_ne_done (a : Arguments) (option : String) (flag : Flag) :
    obey draft option flag ≠ .ok (.done (.compile a)) := by
  have hraise : ∀ old (draft : Draft), raise option old draft ≠ .ok (.done (.compile a)) := by
    intro old draft h
    unfold raise at h
    split at h <;> cases h
  cases flag with
  | bestEffort | forwardRefs | listing | stats => exact hraise _ _
  | verbose | version | help => nofun

theorem map_more_ne_done (a : Arguments) (x : Except UsageFault Draft) :
    (x.map fun draft => Progress.more draft none) ≠ .ok (.done (.compile a)) := by
  cases x <;> nofun

theorem readShort_ne_done (a : Arguments) (letters : List Char) :
    readShort draft letters ≠ .ok (.done (.compile a)) := by
  induction letters generalizing draft with
  | nil => nofun
  | cons c letters ih =>
    intro h
    rw [readShort] at h
    split at h
    · cases h
    · split at h
      · cases h
      · exact map_more_ne_done a _ h
    · split at h
      · exact ih h
      · exact obey_ne_done a _ _ h

/-- An argument alone asks at most for the version or the help. -/
theorem readArgument_ne_done (a : Arguments) : readArgument draft argument ≠ .ok (.done (.compile a)) := by
  intro h
  unfold readArgument at h
  split at h
  · unfold readLong at h
    dsimp only at h
    split at h
    · cases h
    · cases h
    · exact obey_ne_done a _ _ h
    · cases h
    · exact map_more_ne_done a _ h
  · exact readShort_ne_done a _ h
  · exact map_more_ne_done a _ h

theorem output_ofDraft {a : Arguments} (h : ofDraft draft = .ok (.compile a)) (hdraft : draft.output = none) :
    a.output = Path.withoutExtension a.input := by
  unfold ofDraft at h
  split at h
  · cases h
  · cases h
    rw [hdraft]
    rfl

theorem output_readFiles {a : Arguments} {arguments : List String} (h : readFiles draft arguments = .ok (.compile a))
    (hdraft : draft.output = none) : a.output = Path.withoutExtension a.input := by
  induction arguments generalizing draft with
  | nil => exact output_ofDraft h hdraft
  | cons argument arguments ih =>
    rw [readFiles] at h
    split at h
    · next draft' hassign =>
      refine ih h ?_
      unfold assignInput at hassign
      split at hassign
      · cases hassign
      · split at hassign
        · cases hassign
        · cases hassign
          exact hdraft
    · cases h

theorem output_readAll {a : Arguments} {arguments : List String}
    (h : readAll draft pending arguments = .ok (.compile a)) (hdraft : draft.output = none)
    (hpending : pending ≠ some .output) (hout : WithoutOutput arguments) :
    a.output = Path.withoutExtension a.input := by
  induction arguments generalizing draft pending with
  | nil =>
    unfold readAll at h
    split at h
    · cases h
    · exact output_ofDraft h hdraft
  | cons argument arguments ih =>
    unfold readAll at h
    by_cases hend : argument = "--"
    · subst hend
      split at h
      · rw [if_pos (by decide)] at h
        cases h
      · rw [if_pos rfl] at h
        exact output_readFiles h hdraft
    · obtain ⟨hfirst, hrest⟩ : givesOutput argument = false ∧ WithoutOutput arguments := by
        rw [WithoutOutput, List.takeWhile_cons_of_pos (by simpa using hend)] at hout
        exact List.forall_mem_cons.mp hout
      split at h
      · next setting =>
        split at h
        · cases h
        · split at h
          · next draft' hassign =>
            have hsetting : setting ≠ .output := fun heq => hpending (by rw [heq])
            exact ih h (by rw [output_assign hassign hsetting, hdraft]) nofun hrest
          · cases h
      · rw [if_neg hend] at h
        split at h
        · next draft' pending' hread =>
          obtain ⟨houtput, hpending'⟩ := output_readArgument hread hfirst
          exact ih h (by rw [houtput, hdraft]) hpending' hrest
        · next request hread =>
          cases h
          exact absurd hread (readArgument_ne_done a)
        · cases h

/-- **Without the output option**, the output goes to the path of the input without its extension. -/
theorem output_of_parse {a : Arguments} {arguments : List String} (h : parse arguments = .ok (.compile a))
    (hout : WithoutOutput arguments) : a.output = Path.withoutExtension a.input :=
  output_readAll h rfl nofun hout

end Request

/-! ### The files behind a run -/

namespace Command

/-- The input can be read and compiles to the given program. -/
def Builds (tree : FileTree) (a : Arguments) (program : Program) : Prop :=
  ∃ content source, tree.read a.input = .ok content ∧ decodeText content = .ok source ∧
    compile source a.options = .ok program

theorem tree_save (a : Arguments) (log : List Event) (program : Program) (tree : FileTree) :
    (save FileTree.access a log program tree).2 =
      match tree.write a.output program.image with
      | .error _ => tree
      | .ok written => written := by
  unfold save FileTree.access
  simp only [bind, StateT.bind, get, getThe, MonadStateOf.get, StateT.get, pure, set]
  cases tree.write a.output program.image with
  | error fault => rfl
  | ok written => rfl

/-- **The files behind a run**: a program that is built is written to the output, and nothing else is changed. -/
theorem tree_run {arguments : List String} {a : Arguments} (h : Request.parse arguments = .ok (.compile a))
    (tree : FileTree) :
    (Command.run arguments tree).2 =
      match (tree.read a.input).bind decodeText with
      | .error _ => tree
      | .ok source =>
        match compile source a.options with
        | .error _ => tree
        | .ok program =>
          match tree.write a.output program.image with
          | .error _ => tree
          | .ok written => written := by
  have hexecute : execute FileTree.access arguments = compileFile FileTree.access a := by rw [execute, h]
  rw [Command.run, hexecute, StateT.run, compileFile]
  simp only [bind, StateT.bind]
  change ((match (tree.read a.input).bind decodeText with
    | .error fault => pure (failed a [] (.file a.input fault))
    | .ok source =>
      match (compileLogged source a.options).result with
      | .error error => pure (failed a (.compiling a.input :: (compileLogged source a.options).log) (.source error))
      | .ok p => save FileTree.access a (.compiling a.input :: (compileLogged source a.options).log) p :
      StateM FileTree Report) tree).2 = _
  cases (tree.read a.input).bind decodeText with
  | error fault => rfl
  | ok source =>
    dsimp only [compile]
    cases (compileLogged source a.options).result with
    | error e => rfl
    | ok program => exact tree_save a _ program tree

theorem tree_run_of_builds {arguments : List String} {a : Arguments} {tree : FileTree} {program : Program}
    (h : Request.parse arguments = .ok (.compile a)) (hbuilds : Builds tree a program) :
    (Command.run arguments tree).2 =
      match tree.write a.output program.image with
      | .error _ => tree
      | .ok written => written := by
  obtain ⟨content, source, hread, hdecode, hcompile⟩ := hbuilds
  have hsource : (tree.read a.input).bind decodeText = .ok source := by
    rw [hread]
    exact hdecode
  rw [tree_run h, hsource]
  dsimp only
  rw [hcompile]

/-- No file is changed if there is no program to write. -/
theorem tree_run_of_not_builds {arguments : List String} {a : Arguments} {tree : FileTree}
    (h : Request.parse arguments = .ok (.compile a)) (hbuilds : ¬∃ program, Builds tree a program) :
    (Command.run arguments tree).2 = tree := by
  rw [tree_run h]
  cases hread : tree.read a.input with
  | error fault => rfl
  | ok content =>
    cases hdecode : decodeText content with
    | error fault =>
      have hsource : (Except.ok content).bind decodeText = .error fault := hdecode
      rw [hsource]
    | ok source =>
      have hsource : (Except.ok content).bind decodeText = .ok source := hdecode
      rw [hsource]
      dsimp only
      cases hcompile : compile source a.options with
      | error e => rfl
      | ok program => exact absurd ⟨program, content, source, hread, hdecode, hcompile⟩ hbuilds

theorem tree_run_of_not_compile {arguments : List String} (h : ∀ a, Request.parse arguments ≠ .ok (.compile a))
    (tree : FileTree) : (Command.run arguments tree).2 = tree := by
  rw [Command.run, execute]
  cases hparse : Request.parse arguments with
  | error fault => rfl
  | ok request =>
    cases request with
    | compile a => exact absurd hparse (h a)
    | version => rfl
    | help => rfl

end Command

/-- **A run keeps its input** if the name of the input has an extension and no output is given.  If the source cannot be
read or does not compile, no file is changed.  A program whose source has no extension is written over it. -/
theorem input_kept {arguments : List String} (hout : Request.WithoutOutput arguments) (tree : FileTree) :
    ((∀ a, Request.parse arguments ≠ .ok (.compile a)) → (Command.run arguments tree).2 = tree) ∧
      ∀ a, Request.parse arguments = .ok (.compile a) →
        ((¬∃ program, Command.Builds tree a program) → (Command.run arguments tree).2 = tree) ∧
        (Path.HasExtension a.input → (Command.run arguments tree).2.read a.input = tree.read a.input) ∧
        (∀ program, Command.Builds tree a program → ¬Path.HasExtension a.input →
          (Command.run arguments tree).2.read a.input = .ok program.image) := by
  refine ⟨fun h => Command.tree_run_of_not_compile h tree, fun a hparse =>
    ⟨Command.tree_run_of_not_builds hparse, ?_, ?_⟩⟩
  · intro hext
    by_cases hbuilds : ∃ program, Command.Builds tree a program
    · obtain ⟨program, hbuilds⟩ := hbuilds
      rw [Command.tree_run_of_builds hparse hbuilds, Request.output_of_parse hparse hout]
      obtain ⟨content, source, hread, -, -⟩ := hbuilds
      split
      · rfl
      · next written hwrite => rw [FileTree.read_write_withoutExtension hread hext hwrite, hread]
    · rw [Command.tree_run_of_not_builds hparse hbuilds]
  · intro program hbuilds hext
    rw [Command.tree_run_of_builds hparse hbuilds, Request.output_of_parse hparse hout]
    obtain ⟨content, source, hread, -, -⟩ := hbuilds
    obtain ⟨-, -, -, -, hvoid⟩ := FileTree.exists_place_of_read hread
    rw [Path.withoutExtension_eq_self hvoid hext]
    obtain ⟨written, hwrite, hafter⟩ := FileTree.read_write_self hread program.image
    rw [hwrite]
    exact hafter

def sourceBytes : List UInt8 := [0x31, 0x20, 0x2e]

/-- A hidden file with two extensions in a directory with a dot, beside the working directory. -/
def dottedTree : FileTree :=
  ⟨[(["work"], .directory), (["lib.d"], .directory), ([".a.b.f", "lib.d"], .file sourceBytes false)], ["work"]⟩

theorem input_kept_dotted :
    Request.WithoutOutput ["../lib.d/.a.b.f", "-v", "--stats"] ∧
      ∃ a, Request.parse ["../lib.d/.a.b.f", "-v", "--stats"] = .ok (.compile a) ∧
        (∃ program, Command.Builds dottedTree a program) ∧ Path.HasExtension a.input ∧
        (Command.run ["../lib.d/.a.b.f", "-v", "--stats"] dottedTree).2.read a.input = dottedTree.read a.input := by
  have hout : Request.WithoutOutput ["../lib.d/.a.b.f", "-v", "--stats"] := by decide
  have hparse : Request.parse ["../lib.d/.a.b.f", "-v", "--stats"] =
      .ok (.compile ⟨"../lib.d/.a.b.f", "../lib.d/.a.b", {}, false, true, .info⟩) := rfl
  have hext : Path.HasExtension "../lib.d/.a.b.f" := ⟨by decide, ".a.b".toList, "f".toList, by decide, rfl⟩
  obtain ⟨program, hcompile⟩ := exists_of_isOk (x := compile "1 ." {}) (by decide +kernel)
  exact ⟨hout, _, hparse, ⟨program, sourceBytes, "1 .", rfl, rfl, hcompile⟩, hext,
    ((input_kept hout dottedTree).2 _ hparse).2.1 hext⟩

/-- The source in a file without an extension in the working directory. -/
def bareTree : FileTree :=
  ⟨[(["work"], .directory), (["prog", "work"], .file sourceBytes false)], ["work"]⟩

/-- A source without an extension is overwritten by its program. -/
theorem input_overwritten :
    Request.WithoutOutput ["prog"] ∧
      Request.parse ["prog"] = .ok (.compile ⟨"prog", "prog", {}, false, false, .warn⟩) ∧
      bareTree.read "prog" = .ok sourceBytes ∧
      (Command.run ["prog"] bareTree).2.read "prog" ≠ .ok sourceBytes := by
  refine ⟨by decide, rfl, rfl, fun h => ?_⟩
  have hread : ((Command.run ["prog"] bareTree).2.read "prog").toOption ≠ some sourceBytes := by decide +kernel
  exact hread (by rw [h]; rfl)

end ForthElf
