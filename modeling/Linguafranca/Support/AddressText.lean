import Linguafranca.Support.Text
import Mathlib.Data.UInt

/-!
# Reading the text of an address

An IPv6 address is eight groups of up to four hexadecimal digits separated by single colons;
"::", once at most, stands for one or more groups of zeros. An IPv4 address is four decimal
numbers separated by dots. The bytes are in network order.
-/

namespace Linguafranca.Text

/-- The value of a group of one to four hexadecimal digits. -/
def readGroup (piece : List Char) : Option ℕ :=
  if 1 ≤ piece.length ∧ piece.length ≤ 4 then readNumber 16 piece else none

/-- The groups of a text between its colons. -/
def readGroups (text : List Char) : Option (List ℕ) :=
  (text.splitOn ':').mapM readGroup

/-- The groups on one side of "::", where there may be none. -/
def readSide (text : List Char) : Option (List ℕ) :=
  if text = [] then some [] else readGroups text

/-- The groups of the two sides with zeros between them. -/
def fillGroups (front back : List ℕ) : Option (List ℕ) :=
  if front.length + back.length < 8 then
    some (front ++ List.replicate (8 - (front.length + back.length)) 0 ++ back)
  else none

/-- The eight groups of a text; one `::` stands for the groups that are missing. -/
def readIpv6Groups (text : List Char) : Option (List ℕ) :=
  match cutTwice ':' text with
  | none => (readGroups text).bind fun groups => if groups.length = 8 then some groups else none
  | some (before, after) =>
      (readSide before).bind fun front => (readSide after).bind fun back => fillGroups front back

/-- The two bytes of a group, in network order. -/
def groupBytes (group : ℕ) : List UInt8 :=
  [UInt8.ofNat (group / 256), UInt8.ofNat group]

/-- The bytes of the IPv6 address that a text means, if it means one. -/
def readIpv6 (text : List Char) : Option (List UInt8) :=
  (readIpv6Groups text).map fun groups => groups.flatMap groupBytes

/-- The value of one to three decimal digits below 256. -/
def readOctet (piece : List Char) : Option UInt8 :=
  if 1 ≤ piece.length ∧ piece.length ≤ 3 then
    (readNumber 10 piece).bind fun value => if value < 256 then some (UInt8.ofNat value) else none
  else none

/-- The bytes of the IPv4 address that a text means, if it means one. -/
def readIpv4 (text : List Char) : Option (List UInt8) :=
  ((text.splitOn '.').mapM readOctet).bind fun octets =>
    if octets.length = 4 then some octets else none

section

variable {Value : Type*} {write : Value → List Char} {read : List Char → Option Value}
  {sep : Char} {values : List Value}

theorem mapM_map (reads : ∀ value ∈ values, read (write value) = some value) :
    (values.map write).mapM read = some values := by
  induction values with
  | nil => rfl
  | cons value values ih =>
      have rest := ih fun other member => reads other (List.mem_cons_of_mem value member)
      rw [List.map_cons, List.mapM_cons, reads value List.mem_cons_self, rest]
      rfl

/-- Values written with a separator between them are read back. -/
theorem mapM_splitOn_intercalate (some_value : values ≠ [])
    (separable : Separable sep (values.map write))
    (reads : ∀ value ∈ values, read (write value) = some value) :
    (([sep].intercalate (values.map write)).splitOn sep).mapM read = some values := by
  rw [List.splitOn_intercalate sep (fun piece member => (separable piece member).2) (by simpa)]
  exact mapM_map reads

end

/-! ## Groups -/

section Groups

variable {write : ℕ → List Char} {groups front back : List ℕ} {text : List Char}

theorem digitValue_colon : digitValue ':' = none := by decide

theorem digitValue_dot : digitValue '.' = none := by decide

/-- Groups that are read back are pieces. -/
theorem separable_groups (reads : ∀ group ∈ groups, readGroup (write group) = some group) :
    Separable ':' (groups.map write) := by
  intro piece member
  rcases List.mem_map.mp member with ⟨group, present, rfl⟩
  have back := reads group present
  simp only [readGroup] at back
  split at back
  · next sized =>
      refine ⟨List.ne_nil_of_length_pos sized.1, ?_⟩
      have read : (readNumber 16 (write group)).isSome := by simp [back]
      exact notMem_of_readNumber read digitValue_colon
  · simp at back

theorem readSide_intercalate (reads : ∀ group ∈ groups, readGroup (write group) = some group) :
    readSide ([':'].intercalate (groups.map write)) = some groups := by
  cases groups with
  | nil => simp [readSide]
  | cons group others =>
      have pieces := separable_groups reads
      rw [readSide, if_neg (intercalate_ne_nil pieces (by simp))]
      exact mapM_splitOn_intercalate (by simp) pieces reads

theorem readIpv6Groups_full (all : groups.length = 8)
    (reads : ∀ group ∈ groups, readGroup (write group) = some group) :
    readIpv6Groups ([':'].intercalate (groups.map write)) = some groups := by
  have pieces := separable_groups reads
  have some_group : groups ≠ [] := List.ne_nil_of_length_pos (by omega)
  rw [readIpv6Groups, cutTwice_of_spaced (spaced_intercalate pieces)]
  simp only [readGroups, mapM_splitOn_intercalate some_group pieces reads, Option.bind_some, all,
    if_true]

theorem readIpv6Groups_cut
    (readsFront : ∀ group ∈ front, readGroup (write group) = some group) :
    readIpv6Groups ([':'].intercalate (front.map write) ++ ':' :: ':' :: text) =
      (readSide text).bind fun back => fillGroups front back := by
  rw [readIpv6Groups, cutTwice_intercalate (separable_groups readsFront)]
  simp only [readSide_intercalate readsFront, Option.bind_some]

/-- There is no group in front of a colon that begins a side. -/
theorem readSide_colon (text : List Char) : readSide (':' :: text) = none := by
  have pieces : (':' :: text).splitOn ':' = [] :: text.splitOn ':' :=
    List.splitOn_append_cons_self_of_not_mem (List.not_mem_nil) text
  have nothing : readGroup [] = none := rfl
  rw [readSide, if_neg (by simp), readGroups, pieces, List.mapM_cons, nothing]
  rfl

end Groups

end Linguafranca.Text
