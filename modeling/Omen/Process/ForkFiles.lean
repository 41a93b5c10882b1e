import Mathlib.Data.Finset.Card
import Omen.Process.Descriptors

/- The descriptors that `fork` gives to a child: `duplicate_fds` fills the table of the child
   from its start on, whatever slots the parent uses. -/
namespace OmenProcess

section Mounts
variable (mounted : String → String → Bool)

/-- One slot in the loop of `duplicate_fds`: a file that cannot be duplicated is passed. -/
def duplicateFd (parent : OpenFiles) (r : FileTable × OpenFiles) (i : Nat) :
    Option (FileTable × OpenFiles) :=
  match parent.open_files i with
  | none => some r
  | some pfd =>
    match vfsFileDup mounted r.1 pfd none with
    | none => some r
    | some (newfd, files) => do
      let (_, child) ← r.2.addOpenFile newfd
      some (files, child)

/-- The table of all files and that of the child; no result where the source panics. -/
def duplicateFds (files : FileTable) (parent : OpenFiles) : Option (FileTable × OpenFiles) := do
  let r ← (List.range maxOpenFiles).foldlM (duplicateFd mounted parent) (files, ⟨fun _ => none, 0⟩)
  if parent.open_files_count ≠ r.2.open_files_count then none else some r

def Descriptors.forkFiles (d : Descriptors) (parent child : Nat) : Option Descriptors := do
  let (files, p) ← duplicateFds mounted d.files (d.processes parent)
  some ⟨files, Function.update d.processes child p⟩

structure Descriptors.Duplicable (d : Descriptors) (slot : Nat) : Prop where
  known : ∀ i < maxOpenFiles, ∀ pfd, (d.processes slot).open_files i = some pfd →
    pfd < vfsCompatMaxOpenFiles ∧ mounted (d.files pfd).mount (d.files pfd).name = true ∧
      (d.files pfd).loaded = true
  room : ((List.range maxOpenFiles).filterMap (d.processes slot).open_files).length ≤
    ((Finset.range vfsCompatMaxOpenFiles).filter fun i => (d.files i).loaded = false).card

end Mounts

def OpenFiles.used (p : OpenFiles) : Nat :=
  ((List.range maxOpenFiles).filter fun i => (p.open_files i).isSome).length

/-- What is asked of `fork`: it returns, each descriptor of the child leads to what that of the
    parent leads to, the parent has all it had, and both counts are right. -/
def Descriptors.KeepsDescriptors (mounted : String → String → Bool) (d : Descriptors)
    (parent child : Nat) : Prop :=
  ∃ d', d.forkFiles mounted parent child = some d' ∧
    (∀ i < maxOpenFiles, d'.sees child i = d'.sees parent i) ∧
    (d'.processes parent = d.processes parent ∧
      ∀ i < maxOpenFiles, d'.sees parent i = d.sees parent i) ∧
    (d'.processes child).open_files_count = (d'.processes child).used ∧
    (d'.processes parent).open_files_count = (d'.processes parent).used

def OpenFiles.Compact (p : OpenFiles) : Prop :=
  ∀ i < maxOpenFiles, p.open_files i ≠ none → ∀ j < i, p.open_files j ≠ none

section Filling
variable {mounted : String → String → Bool} {files files' : FileTable} {pfd newfd : Nat}

def OpenFiles.ofList (fds : List Nat) : OpenFiles := ⟨fun i => fds[i]?, fds.length⟩

theorem ofList_add (fds : List Nat) (fd : Nat) (room : fds.length < maxOpenFiles) :
    (OpenFiles.ofList fds).addOpenFile fd = some (fds.length, .ofList (fds ++ [fd])) := by
  refine Descriptors.addOpenFile_some.mpr ⟨room, ⟨room, ?_, ?_⟩, ?_⟩
  · exact List.getElem?_eq_none (Nat.le_refl _)
  · intro i less
    exact (List.getElem?_eq_getElem less).trans_ne (Option.some_ne_none _)
  · unfold OpenFiles.ofList
    congr 1
    · funext i
      dsimp only
      by_cases here : i = fds.length
      · subst here
        rw [Function.update_self, List.getElem?_concat_length]
      · rw [Function.update_of_ne here]
        rcases Nat.lt_or_ge i fds.length with less | more
        · rw [List.getElem?_append_left less]
        · rw [List.getElem?_eq_none more, List.getElem?_eq_none (by simp; omega)]
    · rw [List.length_append]
      rfl

def freePlaces (files : FileTable) : Finset Nat :=
  (Finset.range vfsCompatMaxOpenFiles).filter fun i => (files i).loaded = false

theorem vfsFileDup_free (small : pfd < vfsCompatMaxOpenFiles)
    (mount : mounted (files pfd).mount (files pfd).name = true)
    (loaded : (files pfd).loaded = true) (room : 0 < (freePlaces files).card) :
    ∃ newfd, newfd ∈ freePlaces files ∧ vfsFileDup mounted files pfd none =
      some (newfd, Function.update files newfd (files pfd)) := by
  have same : (files pfd).copy = files pfd := by
    unfold FileEntry.copy
    rw [← loaded]
  obtain ⟨place, free⟩ := Finset.card_pos.mp room
  obtain ⟨inside, unused⟩ := Finset.mem_filter.mp free
  cases found : (List.range vfsCompatMaxOpenFiles).find? fun i => !(files i).loaded with
  | none =>
    have full := List.find?_range_eq_none.mp found place (Finset.mem_range.mp inside)
    rw [unused] at full
    cases full
  | some newfd =>
    obtain ⟨here, member, -⟩ := List.find?_range_eq_some.mp found
    refine ⟨newfd, Finset.mem_filter.mpr ⟨Finset.mem_range.mpr (List.mem_range.mp member), ?_⟩, ?_⟩
    · simpa using here
    · unfold vfsFileDup dupFd
      rw [if_neg (Nat.not_le.mpr small), mount, if_neg (by decide), loaded, if_neg (by decide),
        if_neg (Nat.not_le.mpr small), if_neg (by decide), found, same]
      rfl

theorem freePlaces_update (free : newfd ∈ freePlaces files) (loaded : (files pfd).loaded = true) :
    freePlaces (Function.update files newfd (files pfd)) = (freePlaces files).erase newfd := by
  ext i
  unfold freePlaces
  rw [Finset.mem_erase, Finset.mem_filter, Finset.mem_filter]
  by_cases here : i = newfd
  · subst here
    simp [loaded]
  · simp [here]

theorem duplicateFd_loop {parent : OpenFiles} (slots : List Nat) (files : FileTable)
    (fds : List Nat)
    (known : ∀ pfd ∈ slots.filterMap parent.open_files, pfd < vfsCompatMaxOpenFiles ∧
      mounted (files pfd).mount (files pfd).name = true ∧ (files pfd).loaded = true)
    (places : (slots.filterMap parent.open_files).length ≤ (freePlaces files).card)
    (room : fds.length + (slots.filterMap parent.open_files).length ≤ maxOpenFiles) :
    ∃ files' news, slots.foldlM (duplicateFd mounted parent) (files, .ofList fds) =
        some (files', .ofList (fds ++ news)) ∧
      news.map files' = (slots.filterMap parent.open_files).map files ∧
      ∀ e, (files e).loaded = true → files' e = files e := by
  induction slots generalizing files fds with
  | nil => exact ⟨files, [], by rw [List.append_nil]; rfl, rfl, fun _ _ => rfl⟩
  | cons i rest ih =>
    rw [List.foldlM_cons]
    cases slot : parent.open_files i with
    | none =>
      rw [List.filterMap_cons_none slot] at known places room ⊢
      obtain ⟨files', news, done, same, kept⟩ := ih files fds known places room
      refine ⟨files', news, ?_, same, kept⟩
      unfold duplicateFd
      rw [slot]
      exact done
    | some pfd =>
      rw [List.filterMap_cons_some slot] at known places room ⊢
      rw [List.length_cons] at places room
      obtain ⟨small, mount, loaded⟩ := known pfd List.mem_cons_self
      obtain ⟨newfd, free, duplicated⟩ := vfsFileDup_free small mount loaded (by omega)
      have kept : ∀ e, (files e).loaded = true →
          Function.update files newfd (files pfd) e = files e := by
        intro e used
        refine Function.update_of_ne ?_ ..
        rintro rfl
        rw [(Finset.mem_filter.mp free).2] at used
        cases used
      have later := ih (Function.update files newfd (files pfd)) (fds ++ [newfd])
        (fun other member => by
          have known := known other (List.mem_cons_of_mem _ member)
          rw [kept other known.2.2]
          exact known)
        (by
          rw [freePlaces_update free loaded, Finset.card_erase_of_mem free]
          omega)
        (by
          rw [List.length_append, List.length_singleton]
          omega)
      obtain ⟨files', news, done, same, unchanged⟩ := later
      refine ⟨files', newfd :: news, ?_, ?_, ?_⟩
      · unfold duplicateFd
        rw [slot]
        dsimp only
        rw [duplicated]
        dsimp only
        rw [ofList_add fds newfd (by omega), List.append_cons fds newfd news]
        exact done
      · rw [List.map_cons, List.map_cons, same]
        congr 1
        · rw [unchanged newfd (by rw [Function.update_self]; exact loaded), Function.update_self]
        · refine List.map_congr_left fun other member => ?_
          exact kept other (known other (List.mem_cons_of_mem _ member)).2.2
      · intro e used
        rw [unchanged e (by rw [kept e used]; exact used), kept e used]

theorem used_eq (p : OpenFiles) :
    p.used = ((List.range maxOpenFiles).filterMap p.open_files).length := by
  unfold OpenFiles.used
  rw [List.length_filterMap_eq_countP, List.countP_eq_length_filter]

theorem ofList_used {fds : List Nat} (short : fds.length ≤ maxOpenFiles) :
    (OpenFiles.ofList fds).used = fds.length := by
  have upto : ∀ n, ((List.range n).filter fun i => (fds[i]?).isSome).length =
      min n fds.length := by
    intro n
    induction n with
    | zero => simp
    | succ n ih =>
      rw [List.range_succ, List.filter_append, List.length_append, ih]
      by_cases inside : n < fds.length
      · simp [inside]
        omega
      · simp [inside]
        omega
  exact (upto maxOpenFiles).trans (Nat.min_eq_right short)

theorem compact_list {p : OpenFiles} (compact : p.Compact) (n : Nat) (upto : n ≤ maxOpenFiles) :
    ((List.range n).filterMap p.open_files).length ≤ n ∧
      ∀ i < n, ((List.range n).filterMap p.open_files)[i]? = p.open_files i := by
  induction n with
  | zero => exact ⟨Nat.le_refl 0, fun i less => absurd less (Nat.not_lt_zero i)⟩
  | succ n ih =>
    obtain ⟨short, listed⟩ := ih (by omega)
    rw [List.range_succ, List.filterMap_append]
    cases last : p.open_files n with
    | none =>
      rw [List.filterMap_cons_none last, List.filterMap_nil, List.append_nil]
      refine ⟨by omega, fun i less => ?_⟩
      rcases Nat.lt_succ_iff_lt_or_eq.mp less with before | rfl
      · exact listed i before
      · rw [last]
        exact List.getElem?_eq_none short
    | some file =>
      have full : ((List.range n).filterMap p.open_files).length = n := by
        refine Nat.le_antisymm short (Nat.not_lt.mp fun less => ?_)
        have missing := listed _ less
        rw [List.getElem?_eq_none (Nat.le_refl _)] at missing
        exact compact n (by omega) (by rw [last]; simp) _ less missing.symm
      rw [List.filterMap_cons_some last, List.filterMap_nil]
      refine ⟨by rw [List.length_append, full]; rfl, fun i less => ?_⟩
      rcases Nat.lt_succ_iff_lt_or_eq.mp less with before | rfl
      · rw [List.getElem?_append_left (by omega)]
        exact listed i before
      · rw [last, List.getElem?_append_right (by omega), full, Nat.sub_self]
        rfl

theorem forkFiles_spec {d : Descriptors} {parent : Nat} (duplicable : d.Duplicable mounted parent) :
    ∃ files' news, duplicateFds mounted d.files (d.processes parent) =
        (if (d.processes parent).open_files_count ≠ (d.processes parent).used then none
          else some (files', .ofList news)) ∧
      news.length = (d.processes parent).used ∧
      news.map files' =
        ((List.range maxOpenFiles).filterMap (d.processes parent).open_files).map files' ∧
      ∀ i < maxOpenFiles, ((d.processes parent).open_files i).map files' = d.sees parent i := by
  have known : ∀ pfd ∈ (List.range maxOpenFiles).filterMap (d.processes parent).open_files,
      pfd < vfsCompatMaxOpenFiles ∧ mounted (d.files pfd).mount (d.files pfd).name = true ∧
        (d.files pfd).loaded = true := by
    intro pfd member
    obtain ⟨i, inside, slot⟩ := List.mem_filterMap.mp member
    exact duplicable.known i (List.mem_range.mp inside) pfd slot
  have short : ((List.range maxOpenFiles).filterMap (d.processes parent).open_files).length ≤
      maxOpenFiles := (List.length_filterMap_le ..).trans_eq List.length_range
  obtain ⟨files', news, done, same, kept⟩ := duplicateFd_loop (List.range maxOpenFiles) d.files []
    known duplicable.room (by simpa using short)
  have length : news.length = (d.processes parent).used := by
    rw [used_eq, ← List.length_map (f := files'), same, List.length_map]
  refine ⟨files', news, ?_, length, ?_, ?_⟩
  · unfold duplicateFds
    have start : OpenFiles.ofList [] = ⟨fun _ => none, 0⟩ := rfl
    rw [← start, done, List.nil_append, Option.bind_eq_bind, Option.bind_some, ← length]
    rfl
  · rw [same]
    exact List.map_congr_left fun pfd member => (kept pfd (known pfd member).2.2).symm
  · intro i inside
    unfold Descriptors.sees
    cases slot : (d.processes parent).open_files i with
    | none => rfl
    | some pfd =>
      rw [Option.map_some, Option.map_some, kept pfd (duplicable.known i inside pfd slot).2.2]

end Filling

/-- `fork` keeps the descriptors exactly when the slots in use are the first ones and the
    process has counted them right. -/
theorem fork_keeps_descriptors_iff {mounted : String → String → Bool} {d : Descriptors}
    {parent child : Nat} (other : parent ≠ child) (duplicable : d.Duplicable mounted parent) :
    d.KeepsDescriptors mounted parent child ↔ (d.processes parent).Compact ∧
      (d.processes parent).open_files_count = (d.processes parent).used := by
  obtain ⟨files', news, done, length, same, kept⟩ := forkFiles_spec duplicable
  have short : news.length ≤ maxOpenFiles := by
    rw [length, used_eq]
    exact (List.length_filterMap_le ..).trans_eq List.length_range
  unfold Descriptors.KeepsDescriptors Descriptors.forkFiles
  rw [done]
  by_cases counted : (d.processes parent).open_files_count = (d.processes parent).used
  · rw [if_neg (not_not.mpr counted), Option.bind_eq_bind, Option.bind_some]
    have child_sees : ∀ i, (Descriptors.mk files' (Function.update d.processes child
        (.ofList news))).sees child i = (news[i]?).map files' := by
      intro i
      unfold Descriptors.sees
      dsimp only
      rw [Function.update_self]
      rfl
    have parent_sees : ∀ i < maxOpenFiles, (Descriptors.mk files' (Function.update d.processes child
        (.ofList news))).sees parent i = d.sees parent i := by
      intro i inside
      rw [← kept i inside]
      unfold Descriptors.sees
      dsimp only
      rw [Function.update_of_ne other]
    constructor
    · rintro ⟨d', result, sees, -⟩
      cases result
      refine ⟨fun i inside used j less unused => ?_, counted⟩
      have open_iff : ∀ k < maxOpenFiles,
          (k < news.length ↔ (d.processes parent).open_files k ≠ none) := by
        intro k small
        have both := sees k small
        rw [child_sees, parent_sees k small] at both
        have none_iff := congrArg Option.isSome both
        rw [Option.isSome_map, Descriptors.sees, Option.isSome_map] at none_iff
        rw [← Option.isSome_iff_ne_none, ← none_iff]
        simp
      have before := (open_iff i inside).mpr used
      exact (open_iff j (Nat.lt_trans less inside)).mp (Nat.lt_trans less before) unused
    · rintro ⟨compact, -⟩
      refine ⟨_, rfl, ?_, ⟨Function.update_of_ne other .., parent_sees⟩, ?_, ?_⟩
      · intro i inside
        rw [child_sees, parent_sees i inside, ← kept i inside,
          ← (compact_list compact maxOpenFiles (Nat.le_refl _)).2 i inside, ← List.getElem?_map,
          ← List.getElem?_map, same]
      · dsimp only
        rw [Function.update_self, ofList_used short]
        rfl
      · dsimp only
        rw [Function.update_of_ne other]
        exact counted
  · rw [if_pos counted]
    refine iff_of_false ?_ fun both => counted both.2
    rintro ⟨d', result, -⟩
    cases result

def openAt (slots : List Nat) : Descriptors where
  files := fun e => ⟨"/log", "hda", 0, 0, 0, decide (e ∈ slots)⟩
  processes := fun _ => ⟨fun j => if j ∈ slots then some j else none, slots.length⟩

theorem openAt_duplicable {slots : List Nat} (few : ((openAt slots).processes 0).used ≤ 2)
    (low : ∀ i ∈ slots, i < 2) : (openAt slots).Duplicable (fun _ _ => true) 0 := by
  constructor
  · intro j inside pfd slot
    obtain ⟨member, rfl⟩ : j ∈ slots ∧ j = pfd := by
      simpa [openAt] using slot
    exact ⟨Nat.lt_trans inside (by decide), rfl, decide_eq_true member⟩
  · have unused : ({2, 3} : Finset Nat) ⊆ (Finset.range vfsCompatMaxOpenFiles).filter fun i =>
        ((openAt slots).files i).loaded = false := by
      intro i either
      have high : 2 ≤ i ∧ i < vfsCompatMaxOpenFiles := by
        rcases Finset.mem_insert.mp either with rfl | last
        · decide
        · rw [Finset.mem_singleton.mp last]
          decide
      refine Finset.mem_filter.mpr ⟨Finset.mem_range.mpr high.2, decide_eq_false fun member => ?_⟩
      exact absurd (low i member) (Nat.not_lt.mpr high.1)
    rw [← used_eq]
    exact few.trans (Finset.card_le_card unused)

theorem fork_keeps_first : (openAt [0, 1]).KeepsDescriptors (fun _ _ => true) 0 1 := by
  refine (fork_keeps_descriptors_iff (by decide)
    (openAt_duplicable (by decide +kernel) (by decide))).mpr ⟨?_, by decide +kernel⟩
  intro i inside used j less
  have first : j = 0 := by
    have either : ¬ i = 0 → i = 1 := by
      simpa [openAt] using used
    omega
  rw [first]
  nofun

/-- The child of a parent with descriptor 1 and no descriptor 0 has descriptor 0 and no
    descriptor 1. -/
theorem fork_moves_descriptor :
    (∃ d fd, (openAt [1]).forkFiles (fun _ _ => true) 0 1 = some d ∧
      (d.processes 1).open_files 0 = some fd ∧ (d.processes 1).open_files 1 = none) ∧
    ¬ (openAt [1]).KeepsDescriptors (fun _ _ => true) 0 1 := by
  have one : ((openAt [1]).processes 0).used = 1 := by decide +kernel
  have duplicable : (openAt [1]).Duplicable (fun _ _ => true) 0 :=
    openAt_duplicable (one.trans_le (by decide)) (by decide)
  obtain ⟨files', news, done, length, -, -⟩ := forkFiles_spec duplicable
  rw [one] at done length
  obtain ⟨fd, rfl⟩ := List.length_eq_one_iff.mp length
  have forked : (openAt [1]).forkFiles (fun _ _ => true) 0 1 =
      some ⟨files', Function.update (openAt [1]).processes 1 (.ofList [fd])⟩ := by
    unfold Descriptors.forkFiles
    rw [done]
    rfl
  refine ⟨⟨_, fd, forked, rfl, rfl⟩, ?_⟩
  rintro ⟨d', again, same, -⟩
  rw [forked] at again
  cases again
  have both := same 1 (by decide)
  cases both

end OmenProcess
