import SeccapBank.AccountListFormat

set_option autoImplicit false

/- The loading loop of AccountListSetting on any plain text: where it leaves the bytes that
it was given, and where its assertion stops it first. -/
namespace SeccapBank

open CStrings Buffers Delimited Fallible

/-- A record that has another byte in the place of its newline, and anything behind it. -/
def Misfit (bytes : Bytes) : Prop :=
  ∃ account b rest, CommaFree account ∧ b ≠ newline ∧ bytes = unended account ++ b :: rest

theorem loadAccount_assertion {dataPtr : Bytes} :
    loadAccount dataPtr = .error .assertion ↔ Misfit dataPtr := by
  constructor
  · intro failed
    rcases loadAccount_cases dataPtr with left | ⟨account, b, rest, clean, rfl⟩
    · rw [left] at failed
      cases failed
    · refine ⟨account, b, rest, clean, ?_, rfl⟩
      rintro rfl
      rw [loadAccount_unended clean, if_pos rfl] at failed
      cases failed
  · rintro ⟨account, b, rest, clean, other, rfl⟩
    rw [loadAccount_unended clean, if_neg other]

/-- No record of the list ends at this size. -/
def EndsNowhere (accountList : List Account) (size : Nat) : Prop :=
  ∀ front, front <+: accountList → front ≠ [] → (marshalled front).length ≠ size

theorem loader_passes {accountListData rest : Bytes} {accountList : List Account} {size : Nat} :
    Passes accountReader (atSize accountListData size) accountListData accountList rest ↔
      accountListData = marshalled accountList ++ rest ∧
        (∀ account ∈ accountList, CommaFree account) ∧ EndsNowhere accountList size := by
  have left {front back : List Account}
      (whole : accountListData = marshalled (front ++ back) ++ rest) :
      atSize accountListData size (back.flatMap record ++ rest) = false ↔
        (marshalled front).length ≠ size := by
    have total := congrArg List.length whole
    rw [marshalled_append, List.append_assoc, List.length_append] at total
    rw [← Bool.not_eq_true, atSize, beq_iff_eq]
    change ¬ accountListData.length - (marshalled back ++ rest).length = size ↔ _
    omega
  constructor
  · intro passes
    obtain ⟨whole, clean, inside⟩ :=
      passes.sound record CommaFree fun _ _ _ found => loadAccount_sound found
    refine ⟨whole, clean, ?_⟩
    rintro front ⟨back, rfl⟩ nonempty
    apply (left whole).mp
    apply inside back (List.suffix_append ..)
    intro same
    exact nonempty (List.self_eq_append_left.mp same)
  · rintro ⟨whole, clean, nowhere⟩
    have passes := @passes_written _ _ _ accountReader (atSize accountListData size) record
      accountList rest (fun account member => loadAccount_record (clean account member)) ?_
    · rwa [← show accountListData = accountList.flatMap record ++ rest from whole] at passes
    · rintro back ⟨front, rfl⟩ shorter
      apply (left whole).mpr
      apply nowhere front (List.prefix_append ..)
      rintro rfl
      exact shorter rfl

theorem loadAccountList_error {accountListData : Bytes} {size : Nat} {fault : Fault} :
    loadAccountList accountListData size = .error fault ↔
      ∃ accountList rest, accountListData = marshalled accountList ++ rest ∧
        (∀ account ∈ accountList, CommaFree account) ∧ EndsNowhere accountList size ∧
          loadAccount rest = .error fault := by
  rw [loadAccountList, readUntil_eq_error]
  simp only [loader_passes, and_assoc]
  rfl

/-- The size of a plain text as the loop gets it from `unsealing`, in 16 bits. -/
def loadedSize (plain : Bytes) : Nat := (UInt16.ofNat plain.length).toNat

/-- The loop reads only inside the plain text: it ends with the accounts that the plain
text is made of, or its assertion stops the enclave. -/
def LoadsInside (plain : Bytes) : Prop :=
  match loadAccountList plain (loadedSize plain) with
  | .ok accountList => marshalled accountList = plain
  | .error fault => fault = .assertion

theorem loadedSize_small {plain : Bytes} : loadedSize plain = plain.length ↔
    plain.length < 65536 := by
  rw [loadedSize, UInt16.toNat_ofNat']
  omega

/-- The loop stays inside exactly the plain texts that are records from end to end, and
those that have a misfit behind records. -/
theorem loads_inside_iff (plain : Bytes) :
    LoadsInside plain ↔
      (plain.length < 65536 ∧ ∃ accountList, accountList ≠ [] ∧
          (∀ account ∈ accountList, CommaFree account) ∧ plain = marshalled accountList) ∨
        ∃ accountList rest, plain = marshalled accountList ++ rest ∧
          (∀ account ∈ accountList, CommaFree account) ∧
            EndsNowhere accountList (loadedSize plain) ∧ Misfit rest := by
  constructor
  · intro inside
    unfold LoadsInside at inside
    cases result : loadAccountList plain (loadedSize plain) with
    | ok accountList =>
        rw [result] at inside
        obtain ⟨tail, whole, last, nonempty, clean⟩ :=
          readUntil_sound record CommaFree (fun _ _ _ found => loadAccount_sound found) result
        have empty : tail = [] := by
          change plain = marshalled accountList ++ tail at whole
          rw [inside] at whole
          exact List.self_eq_append_right.mp whole
        rw [empty, atSize, beq_iff_eq] at last
        have small := loadedSize_small.mp last.symm
        exact .inl ⟨small, accountList, nonempty, clean, inside.symm⟩
    | error fault =>
        rw [result] at inside
        obtain rfl : fault = .assertion := inside
        right
        simpa only [loadAccount_assertion] using loadAccountList_error.mp result
  · rintro (⟨small, accountList, nonempty, clean, rfl⟩ | stopped)
    · rw [LoadsInside, loadedSize_small.mpr small, loadAccountList_marshalled nonempty clean]
    · have failed : loadAccountList plain (loadedSize plain) = .error .assertion := by
        rw [loadAccountList_error]
        simpa only [loadAccount_assertion] using stopped
      rw [LoadsInside, failed]

theorem misfit_front {accountList : List Account} {bytes tail : Bytes} (misfit : Misfit bytes)
    (clean : ∀ account ∈ accountList, CommaFree account) :
    bytes ++ tail ≠ marshalled accountList := by
  obtain ⟨account, b, rest, fine, other, rfl⟩ := misfit
  intro same
  have failed : loadAccount (marshalled accountList) = .error .assertion := by
    rw [← same, loadAccount_assertion]
    exact ⟨account, b, rest ++ tail, fine, other, by simp⟩
  cases accountList with
  | nil =>
      have empty : loadAccount (marshalled []) = .error .outOfBounds := rfl
      cases failed.symm.trans empty
  | cons first later =>
      cases failed.symm.trans (loadAccount_record (clean first (List.mem_cons_self ..)) _)

/-- Of a marshalled list that is cut at any point, the loop stays inside what is left exactly
if that ends with a record. -/
theorem cut_inside_iff {accountList : List Account} {plain : Bytes}
    (clean : ∀ account ∈ accountList, CommaFree account) (cut : plain <+: marshalled accountList)
    (short : plain.length < 65536) :
    LoadsInside plain ↔
      ∃ front, front <+: accountList ∧ front ≠ [] ∧ plain = marshalled front := by
  obtain ⟨tail, whole⟩ := cut
  constructor
  · intro inside
    unfold LoadsInside at inside
    rw [loadedSize_small.mpr short] at inside
    cases result : loadAccountList plain plain.length with
    | ok loaded =>
        obtain ⟨rfl, nonempty, clean'⟩ := loadAccountList_sound result
        obtain ⟨back, rfl, _⟩ := marshalled_front clean' clean whole
        exact ⟨loaded, List.prefix_append .., nonempty, rfl⟩
    | error fault =>
        rw [result] at inside
        obtain rfl : fault = .assertion := inside
        obtain ⟨front, rest, rfl, clean', _, failed⟩ := loadAccountList_error.mp result
        rw [List.append_assoc] at whole
        obtain ⟨back, rfl, left⟩ := marshalled_front clean' clean whole
        exact absurd left (misfit_front (loadAccount_assertion.mp failed) fun account member =>
          clean account (List.mem_append_right _ member))
  · rintro ⟨front, ordered, nonempty, rfl⟩
    have clean' : ∀ account ∈ front, CommaFree account := fun account member =>
      clean account (ordered.subset member)
    rw [LoadsInside, loadedSize_small.mpr short, loadAccountList_marshalled nonempty clean']

/-- The scans leave the plain text of an empty list at once, and the assertion itself
reads behind one that is cut before its last newline. -/
theorem loader_leaves :
    loadAccountList [] (loadedSize []) = .error .outOfBounds ∧ ¬ LoadsInside [] ∧
      loadAccountList (unended awkwardAccount) (loadedSize (unended awkwardAccount)) =
        .error .outOfBounds ∧ ¬ LoadsInside (unended awkwardAccount) := by
  have empty : loadAccountList [] (loadedSize []) = .error .outOfBounds :=
    loadAccountList_clean List.not_mem_nil _
  have cut : loadAccountList (unended awkwardAccount) (loadedSize (unended awkwardAccount)) =
      .error .outOfBounds :=
    readUntil_error (show loadAccount (unended awkwardAccount) = _ from rfl)
  refine ⟨empty, ?_, cut, ?_⟩
  · rw [LoadsInside, empty]
    exact nofun
  · rw [LoadsInside, cut]
    exact nofun

end SeccapBank
