import ForthElf.Code.Emitter
import Mathlib.Algebra.Ring.Int.Defs
import Mathlib.Algebra.Ring.Nat

/-!
# Branches of a block

Code under construction is a block of instructions.  A patch changes the displacement of one of its branches and nothing
else.

* `Link`, `links offset block` — the branches of a block that starts at `offset`, with their fields and displacements;
* `redirect choose offset block` — the block with the branch at each field `site` led to `choose site`, if there is one;
* `CodeBuffer.Holds code block` — the bytes of `code` are those of `block`;
* `CodeBuffer.Holds.patchRel32` — a patch of a branch field redirects the branch.
-/

namespace ForthElf

/-! ### Displacements -/

/-- The displacement of a branch whose field is at `site` and that leads to `target`. -/
def distance (site target : Nat) : BitVec 32 :=
  BitVec.ofInt 32 (signedOffset target - (signedOffset site + 4))

theorem rel32_eq_some {site target : Nat} {d : BitVec 32} (h : rel32 site target = some d) :
    d = distance site target := by
  simp only [rel32] at h
  split at h
  · exact (Option.some.inj h).symm
  · exact absurd h (by simp)

theorem signedOffset_eq_self {offset : Nat} (h : offset < 2 ^ 63) : signedOffset offset = offset := by
  have hnat : (BitVec.ofNat 64 offset).toNat = offset := by
    rw [BitVec.toNat_ofNat]
    omega
  rw [signedOffset, BitVec.toInt_eq_toNat_of_lt (by omega), hnat]

/-- Within 2 GiB the displacement is the distance from the end of the field. -/
theorem toInt_distance {site target : Nat} (hsite : site + 4 ≤ 2 ^ 31) (htarget : target < 2 ^ 31) :
    (distance site target).toInt = target - (site + 4) := by
  rw [distance, signedOffset_eq_self (by omega), signedOffset_eq_self (by omega), BitVec.toInt_ofInt]
  apply Int.bmod_eq_of_le <;> omega

/-! ### The branches of a block -/

/-- A branch in code: its kind, the place of its field and the displacement there. -/
structure Link where
  kind : Branch
  site : Nat
  disp : BitVec 32
deriving DecidableEq

def Link.target (l : Link) : Int :=
  l.site + 4 + l.disp.toInt

def Link.start (l : Link) : Nat :=
  l.site - l.kind.opcode.length

/-- A branch at `offset` to `target`. -/
def leading (offset : Nat) (kind : Branch) (target : Nat) : Instruction :=
  .branch kind (distance (offset + kind.opcode.length) target)

/-- The link that an instruction at `offset` is, if it is a branch. -/
def Instruction.link? (offset : Nat) : Instruction → Option Link
  | .branch kind d => some ⟨kind, offset + kind.opcode.length, d⟩
  | _ => none

/-- The branches of a block that starts at `offset`. -/
def links : Nat → List Instruction → List Link
  | _, [] => []
  | offset, i :: block => (i.link? offset).toList ++ links (offset + i.size) block

@[simp] theorem length_opcode_jump : Branch.jump.opcode.length = 1 := rfl

@[simp] theorem length_opcode_jumpIf (condition : Condition) : (Branch.jumpIf condition).opcode.length = 2 := rfl

@[simp] theorem length_opcode_call : Branch.call.opcode.length = 1 := rfl

theorem size_branch (kind : Branch) (d : BitVec 32) :
    (Instruction.branch kind d).size = kind.opcode.length + 4 := by
  simp [Instruction.size, Instruction.encode, bytes32]

theorem size_leading (offset : Nat) (kind : Branch) (target : Nat) :
    (leading offset kind target).size = kind.opcode.length + 4 :=
  size_branch kind _

@[simp] theorem links_nil (offset : Nat) : links offset [] = [] := rfl

theorem links_cons (offset : Nat) (i : Instruction) (block : List Instruction) :
    links offset (i :: block) = (i.link? offset).toList ++ links (offset + i.size) block := rfl

@[simp] theorem links_append (offset : Nat) (a b : List Instruction) :
    links offset (a ++ b) = links offset a ++ links (offset + codeSize a) b := by
  induction a generalizing offset with
  | nil => simp
  | cons i a ih => simp [links_cons, ih, Nat.add_assoc]

theorem mem_links {offset : Nat} {block : List Instruction} {l : Link} :
    l ∈ links offset block ↔ ∃ front back, block = front ++ .branch l.kind l.disp :: back ∧
      l.site = offset + codeSize front + l.kind.opcode.length := by
  constructor
  · intro h
    induction block generalizing offset with
    | nil => cases h
    | cons i block ih =>
      rcases List.mem_append.mp h with h | h
      · refine ⟨[], block, ?_⟩
        cases i <;> simp [Instruction.link?] at h
        subst h
        simp
      · obtain ⟨front, back, rfl, hsite⟩ := ih h
        exact ⟨i :: front, back, rfl, by rw [hsite, codeSize_cons, Nat.add_assoc offset]⟩
  · rintro ⟨front, back, rfl, hsite⟩
    rw [links_append]
    refine List.mem_append_right _ (List.mem_append_left _ ?_)
    simp [Instruction.link?, ← hsite]

theorem site_bounds_of_mem_links {offset : Nat} {block : List Instruction} {l : Link}
    (h : l ∈ links offset block) : offset < l.site ∧ l.site + 4 ≤ offset + codeSize block := by
  obtain ⟨front, back, rfl, hsite⟩ := mem_links.mp h
  have hpos : 0 < l.kind.opcode.length := by cases l.kind <;> simp [Branch.opcode]
  rw [codeSize_append, codeSize_cons, size_branch]
  omega

theorem start_bounds_of_mem_links {offset : Nat} {block : List Instruction} {l : Link}
    (h : l ∈ links offset block) : offset ≤ l.start ∧ l.start < offset + codeSize block := by
  obtain ⟨front, back, rfl, hsite⟩ := mem_links.mp h
  rw [Link.start, hsite, codeSize_append, codeSize_cons, size_branch]
  omega

/-- The link of a branch at `offset` to `target`. -/
def Link.to (offset : Nat) (kind : Branch) (target : Nat) : Link :=
  ⟨kind, offset + kind.opcode.length, distance (offset + kind.opcode.length) target⟩

theorem links_leading (offset : Nat) (kind : Branch) (target : Nat) (block : List Instruction) :
    links offset (leading offset kind target :: block) =
      Link.to offset kind target :: links (offset + (kind.opcode.length + 4)) block := by
  rw [links_cons, size_leading]
  rfl

theorem Link.target_to {offset target : Nat} {kind : Branch} (hsite : offset + (kind.opcode.length + 4) ≤ 2 ^ 31)
    (htarget : target < 2 ^ 31) : (Link.to offset kind target).target = target := by
  simp only [Link.to, Link.target]
  rw [toInt_distance (by omega) htarget]
  omega

def Straight (block : List Instruction) : Prop :=
  ∀ kind d, .branch kind d ∉ block

theorem Straight.links_eq {block : List Instruction} (h : Straight block) (offset : Nat) :
    links offset block = [] := by
  refine List.eq_nil_iff_forall_not_mem.mpr fun l hl => ?_
  obtain ⟨front, back, rfl, -⟩ := mem_links.mp hl
  exact h l.kind l.disp (by simp)

theorem straight_of_all {block : List Instruction} (h : block.all (fun i => (i.link? 0).isNone) = true) :
    Straight block := by
  intro kind d hmem
  have := List.all_eq_true.mp h _ hmem
  cases this

theorem Straight.append {a b : List Instruction} (ha : Straight a) (hb : Straight b) : Straight (a ++ b) := by
  intro kind d hmem
  rcases List.mem_append.mp hmem with hmem | hmem
  · exact ha kind d hmem
  · exact hb kind d hmem

/-! ### Redirecting branches -/

/-- The instruction at `offset`, led to where its field is sent. -/
def redirectOne (choose : Nat → Option Nat) (offset : Nat) : Instruction → Instruction
  | .branch kind d =>
    match choose (offset + kind.opcode.length) with
    | some target => leading offset kind target
    | none => .branch kind d
  | i => i

/-- A block at `offset` with all branches led to where their fields are sent. -/
def redirect (choose : Nat → Option Nat) : Nat → List Instruction → List Instruction
  | _, [] => []
  | offset, i :: block => redirectOne choose offset i :: redirect choose (offset + i.size) block

/-- The link with its field sent elsewhere. -/
def Link.redirect (choose : Nat → Option Nat) (l : Link) : Link :=
  match choose l.site with
  | some target => { l with disp := distance l.site target }
  | none => l

section Redirect

variable (choose : Nat → Option Nat)

@[simp] theorem Link.site_redirect (l : Link) : (l.redirect choose).site = l.site := by
  unfold Link.redirect
  split <;> rfl

@[simp] theorem size_redirectOne (offset : Nat) (i : Instruction) :
    (redirectOne choose offset i).size = i.size := by
  unfold redirectOne
  split
  · split <;> simp [size_branch, size_leading]
  · rfl

@[simp] theorem codeSize_redirect (offset : Nat) (block : List Instruction) :
    codeSize (redirect choose offset block) = codeSize block := by
  induction block generalizing offset with
  | nil => rfl
  | cons i block ih => simp [redirect, ih]

theorem redirect_append (offset : Nat) (a b : List Instruction) :
    redirect choose offset (a ++ b) =
      redirect choose offset a ++ redirect choose (offset + codeSize a) b := by
  induction a generalizing offset with
  | nil => simp [redirect]
  | cons i a ih => simp [redirect, ih, Nat.add_assoc]

theorem link?_redirectOne (offset : Nat) (i : Instruction) :
    (redirectOne choose offset i).link? offset = (i.link? offset).map (Link.redirect choose) := by
  cases i with
  | branch kind d =>
    simp only [redirectOne, Instruction.link?, Option.map_some, Link.redirect]
    cases choose (offset + kind.opcode.length) <;> rfl
  | _ => rfl

theorem links_redirect (offset : Nat) (block : List Instruction) :
    links offset (redirect choose offset block) = (links offset block).map (Link.redirect choose) := by
  induction block generalizing offset with
  | nil => rfl
  | cons i block ih =>
    simp only [redirect, links_cons, link?_redirectOne, size_redirectOne, ih, List.map_append]
    cases i.link? offset <;> rfl

variable {choose}

theorem redirect_congr {choose' : Nat → Option Nat} {offset : Nat} {block : List Instruction}
    (h : ∀ l ∈ links offset block, choose l.site = choose' l.site) :
    redirect choose offset block = redirect choose' offset block := by
  induction block generalizing offset with
  | nil => rfl
  | cons i block ih =>
    rw [links_cons] at h
    have htail := ih fun l hl => h l (List.mem_append_right _ hl)
    have hhead : redirectOne choose offset i = redirectOne choose' offset i := by
      cases i with
      | branch kind d =>
        have := h _ (List.mem_append_left _ (List.mem_singleton_self _))
        simp only [redirectOne, this]
      | _ => rfl
    rw [redirect, redirect, hhead, htail]

theorem redirect_none (offset : Nat) (block : List Instruction) :
    redirect (fun _ => none) offset block = block := by
  induction block generalizing offset with
  | nil => rfl
  | cons i block ih =>
    rw [redirect, ih]
    cases i <;> rfl

theorem redirect_eq_self {offset : Nat} {block : List Instruction}
    (h : ∀ l ∈ links offset block, choose l.site = none) : redirect choose offset block = block :=
  calc redirect choose offset block
    _ = redirect (fun _ => none) offset block := redirect_congr h
    _ = block := redirect_none offset block

/-- Of two redirections the later one prevails. -/
theorem redirect_redirect (later : Nat → Option Nat) (offset : Nat) (block : List Instruction) :
    redirect later offset (redirect choose offset block) =
      redirect (fun site => (later site).or (choose site)) offset block := by
  induction block generalizing offset with
  | nil => rfl
  | cons i block ih =>
    simp only [redirect, size_redirectOne, ih, List.cons.injEq, and_true]
    cases i with
    | branch kind d =>
      simp only [redirectOne]
      cases hl : later (offset + kind.opcode.length) <;>
        cases hc : choose (offset + kind.opcode.length) <;> simp [leading, hl]
    | _ => rfl

end Redirect

/-! ### Patching -/

/-- Sends all of the given fields to one target. -/
def sending (sites : List Nat) (target : Nat) : Nat → Option Nat :=
  fun site => if site ∈ sites then some target else none

theorem sending_nil (target : Nat) : sending [] target = fun _ => none := by
  funext site
  simp [sending]

theorem sending_cons (site : Nat) (sites : List Nat) (target : Nat) :
    (fun s => (sending sites target s).or (sending [site] target s)) = sending (site :: sites) target := by
  funext s
  by_cases hs : s ∈ sites <;> simp [sending, hs]

/-- The bytes of a buffer are those of a block. -/
def CodeBuffer.Holds (code : CodeBuffer) (block : List Instruction) : Prop :=
  code.bytes.toList = assemble block

theorem toList_overwrite {bytes : Array UInt8} {front old back : List UInt8} {field : List UInt8}
    (hbytes : bytes.toList = front ++ old ++ back) (hlength : field.length = old.length) :
    (overwrite bytes front.length field).toList = front ++ field ++ back := by
  induction field generalizing bytes front old with
  | nil =>
    have hold : old = [] := List.eq_nil_of_length_eq_zero hlength.symm
    rw [overwrite, hbytes, hold]
  | cons b field ih =>
    obtain ⟨o, old, rfl⟩ : ∃ o old', old = o :: old' :=
      List.exists_cons_of_length_eq_add_one hlength.symm
    -- The first byte goes in front; the rest is written behind it.
    have hset : (bytes.setIfInBounds front.length b).toList = (front ++ [b]) ++ old ++ back := by
      rw [Array.toList_setIfInBounds, hbytes]
      simp
    have hrest := ih hset (by simpa using hlength)
    rw [List.length_append, List.length_singleton] at hrest
    rw [overwrite, hrest]
    simp

namespace CodeBuffer

theorem offset_eq_codeSize {code : CodeBuffer} {block : List Instruction} (h : code.Holds block) :
    code.offset = codeSize block := by
  rw [← length_assemble, ← h, Array.length_toList, offset]

theorem Holds.append {code : CodeBuffer} {block : List Instruction} (h : code.Holds block)
    (more : List Instruction) : (code.append (assemble more)).Holds (block ++ more) := by
  rw [Holds, assemble_append, CodeBuffer.append, Array.toList_append, h]

theorem bytes_of_patch {code after : CodeBuffer} {site : Nat} {value : BitVec 32}
    (h : patch site value code = .ok () after) : after.bytes = overwrite code.bytes site (bytes32 value) := by
  rw [patch_apply] at h
  split at h
  · cases h
    rfl
  · cases h

theorem patch_of_patchRel32 {code after : CodeBuffer} {site target : Nat}
    (h : patchRel32 site target code = .ok () after) :
    patch site (distance site target) code = .ok () after := by
  rw [patchRel32_apply] at h
  split at h
  · next d hd =>
    rw [← rel32_eq_some hd]
    exact h
  · cases h

/-- A patch of the field of a branch, with any bytes in front of the branch and behind it. -/
theorem toList_patchRel32 {code after : CodeBuffer} {front back : List UInt8} {kind : Branch}
    {d : BitVec 32} {site target : Nat}
    (hcode : code.bytes.toList = front ++ (Instruction.branch kind d).encode ++ back)
    (hsite : site = front.length + kind.opcode.length)
    (h : patchRel32 site target code = .ok () after) :
    after.bytes.toList = front ++ (leading front.length kind target).encode ++ back := by
  have hsplit : code.bytes.toList = (front ++ kind.opcode) ++ bytes32 d ++ back := by
    simpa [Instruction.encode, List.append_assoc] using hcode
  have hlength : (bytes32 (distance site target)).length = (bytes32 d).length := by
    rw [bytes32, bytes32, littleEndian_length, littleEndian_length]
  have hfield := toList_overwrite hsplit hlength
  rw [List.length_append, ← hsite] at hfield
  rw [bytes_of_patch (patch_of_patchRel32 h), hfield, hsite, leading, Instruction.encode]
  simp only [List.append_assoc]

/-- **A patch redirects a branch** and leaves all other instructions alone. -/
theorem Holds.patchRel32 {code after : CodeBuffer} {block : List Instruction} {site target : Nat}
    (hcode : code.Holds block) (hfield : ∃ l ∈ links 0 block, l.site = site)
    (h : CodeBuffer.patchRel32 site target code = .ok () after) :
    after.Holds (redirect (sending [site] target) 0 block) := by
  obtain ⟨l, hl, rfl⟩ := hfield
  obtain ⟨front, back, rfl, hsite⟩ := mem_links.mp hl
  rw [Nat.zero_add] at hsite
  have hbytes : code.bytes.toList =
      assemble front ++ (Instruction.branch l.kind l.disp).encode ++ assemble back := by
    rw [hcode]
    simp
  rw [← length_assemble] at hsite
  have hafter := toList_patchRel32 hbytes hsite h
  -- The fields in front of the branch and behind it are others.
  have hfront : redirect (sending [l.site] target) 0 front = front := by
    refine redirect_eq_self fun f hf => ?_
    have := (site_bounds_of_mem_links hf).2
    rw [length_assemble] at hsite
    simp [sending]
    omega
  have hback : ∀ offset, l.site < offset → redirect (sending [l.site] target) offset back = back := by
    intro offset hoffset
    refine redirect_eq_self fun f hf => ?_
    have := (site_bounds_of_mem_links hf).1
    simp [sending]
    omega
  rw [length_assemble] at hsite
  have hone : redirectOne (sending [l.site] target) (codeSize front) (.branch l.kind l.disp) =
      leading (codeSize front) l.kind target := by
    simp [redirectOne, sending, hsite]
  rw [Holds, hafter, redirect_append, redirect, hfront, Nat.zero_add, hone,
    hback _ (by rw [size_branch]; omega), length_assemble]
  simp

/-- The second buffer is the first one with the branches at the given fields led to `target`. -/
def Aims (sites : List Nat) (target : Nat) (before after : CodeBuffer) : Prop :=
  after.offset = before.offset ∧
    ∀ block, before.Holds block → (∀ site ∈ sites, ∃ l ∈ links 0 block, l.site = site) →
      after.Holds (redirect (sending sites target) 0 block)

theorem Aims.nil (target : Nat) (code : CodeBuffer) : Aims [] target code code := by
  refine ⟨rfl, fun block h _ => ?_⟩
  rw [sending_nil, redirect_none]
  exact h

theorem Aims.of_patchRel32 {code after : CodeBuffer} {site target : Nat}
    (h : patchRel32 site target code = .ok () after) : Aims [site] target code after := by
  refine ⟨offset_of_patch (patch_of_patchRel32 h), fun block hblock hsites => ?_⟩
  exact hblock.patchRel32 (hsites site (List.mem_singleton_self site)) h

theorem Aims.cons {a b c : CodeBuffer} {site target : Nat} {sites : List Nat}
    (hfirst : Aims [site] target a b) (hrest : Aims sites target b c) :
    Aims (site :: sites) target a c := by
  refine ⟨hrest.1.trans hfirst.1, fun block hblock hsites => ?_⟩
  have hb := hfirst.2 block hblock fun f hf => hsites f (by simp_all)
  have hc := hrest.2 _ hb fun f hf => by
    obtain ⟨l, hl, rfl⟩ := hsites f (List.mem_cons_of_mem _ hf)
    refine ⟨l.redirect (sending [site] target), ?_, Link.site_redirect _ l⟩
    rw [links_redirect]
    exact List.mem_map_of_mem hl
  rw [redirect_redirect, sending_cons] at hc
  exact hc

end CodeBuffer

end ForthElf
