import Linguafranca.Nfstat.Listing
import Linguafranca.Support.AddressText

/-!
# Reading back what `nfs_ip2str` writes

The text of an IPv4 address is read back as its four bytes. In the text of an IPv6 address the
two bytes of every group have changed places, since the groups are read in host order, and
three colons stand where zeros are compressed behind other groups.
-/

namespace Linguafranca.Nfstat

open Text

/-- The text of an address spells its bytes, whatever was in the buffer. -/
structure WritesAddress (ip : NfsIpaddr) : Prop where
  ipv6 : ip.len = 6 → ∀ buf, readIpv6 (nfsIp2str ip buf) = some ip.addr.toList
  ipv4 : ip.len = 4 → ∀ buf, readIpv4 (nfsIp2str ip buf) = some (ip.addr.toList.take 4)

/-- The two bytes of every group are equal. -/
def Doubled : List UInt8 → Prop
  | low :: high :: rest => low = high ∧ Doubled rest
  | _ => True

/-- There is no zero group behind others. -/
def ZerosFirst (groups : List ℕ) : Prop :=
  0 ∈ groups → groups.head? = some 0

variable {ip : NfsIpaddr} {buf : List Char} {groups front rest : List ℕ} {bytes : List UInt8}

theorem hostGroups_lt {group : ℕ} (member : group ∈ hostGroups bytes) : group < 65536 := by
  fun_induction hostGroups bytes with
  | case1 low high rest ih =>
      rcases List.mem_cons.mp member with rfl | later
      · have := low.toNat_lt
        have := high.toNat_lt
        omega
      · exact ih later
  | case2 => simp at member

theorem groupBytes_hostGroup (low high : UInt8) :
    groupBytes (low.toNat + 256 * high.toNat) = [high, low] := by
  have small := low.toNat_lt
  have upper : (low.toNat + 256 * high.toNat) / 256 = high.toNat := by omega
  have lower : UInt8.ofNat (low.toNat + 256 * high.toNat) = low := by
    apply UInt8.toNat_inj.mp
    rw [UInt8.toNat_ofNat']
    omega
  rw [groupBytes, upper, lower, UInt8.ofNat_toNat]

/-- Read in network order the groups of the host spell the bytes only if it makes no
difference. -/
theorem flatMap_groupBytes_iff (even : bytes.length % 2 = 0) :
    (hostGroups bytes).flatMap groupBytes = bytes ↔ Doubled bytes := by
  fun_induction hostGroups bytes with
  | case1 low high rest ih =>
      simp only [List.length_cons] at even
      simp only [List.flatMap_cons, groupBytes_hostGroup, List.cons_append, List.nil_append,
        List.cons.injEq, Doubled, ih (by omega)]
      constructor
      · rintro ⟨same, -, later⟩
        exact ⟨same.symm, later⟩
      · rintro ⟨rfl, later⟩
        exact ⟨rfl, rfl, later⟩
  | case2 bytes short =>
      rcases bytes with _ | ⟨byte, _ | ⟨next, bytes⟩⟩
      · simp [Doubled]
      · simp at even
      · exact absurd rfl (short byte next bytes)

theorem length_hex4 {group : ℕ} (small : group < 65536) : (hex4 group).length = 4 := by
  apply length_padded
  apply (Nat.length_toDigits_le_iff _ _).mpr
  · omega
  · omega
  · omega

theorem readGroup_hex4 {group : ℕ} (small : group < 65536) :
    readGroup (hex4 group) = some group := by
  rw [readGroup, length_hex4 small, if_pos (by omega), hex4, readNumber_padded (by omega),
    readNumber_toDigits (by omega) (by omega)]

theorem replicate_append_dropWhile (groups : List ℕ) :
    (groups.dropWhile (· = 0)).length ≤ groups.length ∧
      List.replicate (groups.length - (groups.dropWhile (· = 0)).length) 0 ++
        groups.dropWhile (· = 0) = groups := by
  induction groups with
  | nil => simp
  | cons p groups ih =>
      by_cases zero : p = 0
      · rcases ih with ⟨shorter, filled⟩
        have count : (p :: groups).length - (groups.dropWhile (· = 0)).length =
            groups.length - (groups.dropWhile (· = 0)).length + 1 := by
          simp only [List.length_cons]
          omega
        have skip : (p :: groups).dropWhile (· = 0) = groups.dropWhile (· = 0) := by simp [zero]
        rw [skip, count, List.replicate_succ, List.cons_append, filled, zero]
        refine ⟨?_, rfl⟩
        simp only [List.length_cons]
        omega
      · simp [zero]

/-- The zeros that were skipped are filled in. -/
theorem fillGroups_dropWhile (all : rest.length = 7) :
    fillGroups [] (rest.dropWhile (· = 0)) = some (0 :: rest) := by
  rcases replicate_append_dropWhile rest with ⟨shorter, filled⟩
  have count : 8 - (([] : List ℕ).length + (rest.dropWhile (· = 0)).length) =
      rest.length - (rest.dropWhile (· = 0)).length + 1 := by
    simp only [List.length_nil]
    omega
  have room : ([] : List ℕ).length + (rest.dropWhile (· = 0)).length < 8 := by
    simp only [List.length_nil]
    omega
  rw [fillGroups, if_pos room, count, List.replicate_succ, List.nil_append, List.cons_append,
    filled]

theorem flatMap_colon (some_group : front ≠ []) :
    front.flatMap (fun p => hex4 p ++ [':']) = joined front ++ [':'] := by
  induction front with
  | nil => exact absurd rfl some_group
  | cons p front ih =>
      cases front with
      | nil => simp [joined]
      | cons next front =>
          rw [List.flatMap_cons, ih (by simp), joined_cons p (by simp)]
          simp

/-! ## Reading -/

section Reading

theorem even_addr : ip.addr.toList.length % 2 = 0 := by
  rw [ip.addr.length_toList]

theorem readGroup_of_mem {group : ℕ} (member : group ∈ hostGroups bytes) :
    readGroup (hex4 group) = some group :=
  readGroup_hex4 (hostGroups_lt member)

/-- Zeros in front of all other groups are read back. -/
theorem readIpv6Groups_zeros (all : rest.length = 7)
    (reads : ∀ group ∈ rest, readGroup (hex4 group) = some group) :
    readIpv6Groups (':' :: ':' :: joined (rest.dropWhile (· = 0))) = some (0 :: rest) := by
  have back := @readSide_intercalate hex4 (rest.dropWhile (· = 0)) fun group member =>
    reads group (List.dropWhile_subset _ member)
  have cut := @readIpv6Groups_cut hex4 [] (joined (rest.dropWhile (· = 0))) (by simp)
  rw [joined] at cut
  rw [back, Option.bind_some, fillGroups_dropWhile all] at cut
  exact cut

/-- Nothing is read where zeros are compressed behind other groups. -/
theorem readIpv6Groups_behind (some_group : front ≠ [])
    (reads : ∀ group ∈ front, readGroup (hex4 group) = some group) (text : List Char) :
    readIpv6Groups (front.flatMap (fun p => hex4 p ++ [':']) ++ [':', ':'] ++ text) = none := by
  have cut := @readIpv6Groups_cut hex4 front (':' :: text) reads
  rw [readSide_colon, Option.bind_none] at cut
  rw [flatMap_colon some_group]
  simpa [joined] using cut

variable (six : ip.len = 6)

include six

/-- The groups are read back, unless zeros are compressed behind others. -/
theorem readIpv6Groups_nfsIp2str (buf : List Char) :
    readIpv6Groups (nfsIp2str ip buf) =
      if 0 ∈ hostGroups ip.addr.toList ∧ (hostGroups ip.addr.toList).head? ≠ some 0 then none
      else some (hostGroups ip.addr.toList) := by
  have all := length_hostGroups 8 ip.addr.length_toList
  by_cases zero : 0 ∈ hostGroups ip.addr.toList
  · rcases List.eq_append_cons_of_mem zero with ⟨front, rest, split, without⟩
    have reads : ∀ group ∈ front ++ 0 :: rest, readGroup (hex4 group) = some group := by
      intro group member
      rw [← split] at member
      exact readGroup_of_mem member
    rw [nfsIp2str_of_zero six split without]
    cases front with
    | nil =>
        have seven : rest.length = 7 := by
          rw [split] at all
          simpa using all
        rw [if_neg (by simp [split]), split]
        apply readIpv6Groups_zeros seven
        intro group member
        exact reads group (List.mem_cons_of_mem 0 member)
    | cons group front =>
        have proper : (hostGroups ip.addr.toList).head? ≠ some 0 := by
          rw [split]
          rintro first
          apply without
          simp only [List.cons_append, List.head?_cons, Option.some.injEq] at first
          simp [first]
        rw [if_pos ⟨zero, proper⟩]
        apply readIpv6Groups_behind (by simp)
        intro other member
        exact reads other (List.mem_append_left _ member)
  · rw [nfsIp2str_of_not_mem six zero, if_neg (by simp [zero])]
    apply readIpv6Groups_full all
    intro group member
    exact readGroup_of_mem member

theorem readIpv6_nfsIp2str_iff (buf : List Char) :
    readIpv6 (nfsIp2str ip buf) = some ip.addr.toList ↔
      Doubled ip.addr.toList ∧ ZerosFirst (hostGroups ip.addr.toList) := by
  rw [readIpv6, readIpv6Groups_nfsIp2str six, ← flatMap_groupBytes_iff even_addr]
  by_cases behind : 0 ∈ hostGroups ip.addr.toList ∧ (hostGroups ip.addr.toList).head? ≠ some 0
  · rw [if_pos behind]
    simp only [Option.map_none, reduceCtorEq, false_iff, not_and]
    intro _ zerosFirst
    exact behind.2 (zerosFirst behind.1)
  · have zerosFirst : ZerosFirst (hostGroups ip.addr.toList) := by
      intro zero
      by_contra other
      exact behind ⟨zero, other⟩
    rw [if_neg behind]
    simp [zerosFirst]

end Reading

theorem readOctet_decimal (byte : UInt8) : readOctet (decimal byte.toNat) = some byte := by
  have bound := byte.toNat_lt
  have short : (decimal byte.toNat).length ≤ 3 := by
    apply (Nat.length_toDigits_le_iff _ _).mpr
    · omega
    · omega
    · omega
  rw [readOctet, if_pos ⟨Nat.length_toDigits_pos, short⟩, readNumber_decimal, Option.bind_some,
    if_pos (by omega), UInt8.ofNat_toNat]

/-- A dotted quad is read back as its bytes. -/
theorem readIpv4_nfsIp2str (four : ip.len = 4) (buf : List Char) :
    readIpv4 (nfsIp2str ip buf) = some (ip.addr.toList.take 4) := by
  have all : (ip.addr.toList.take 4).length = 4 := by
    rw [List.length_take, ip.addr.length_toList]
    rfl
  have pieces : Separable '.' ((ip.addr.toList.take 4).map fun byte => decimal byte.toNat) := by
    intro piece member
    rcases List.mem_map.mp member with ⟨byte, -, rfl⟩
    have read : (readNumber 10 (decimal byte.toNat)).isSome := by
      simp only [readNumber_decimal, Option.isSome_some]
    exact ⟨Nat.toDigits_ne_nil, notMem_of_readNumber read digitValue_dot⟩
  have octets := mapM_splitOn_intercalate (List.ne_nil_of_length_pos (by omega)) pieces
    fun byte _ => readOctet_decimal byte
  rw [nfsIp2str, if_pos four, readIpv4, sprintf, List.take_zero, List.nil_append, octets,
    Option.bind_some, if_pos all]

/-- Every IPv4 address is written right; of the IPv6 addresses those whose groups read the same
in either order and have no zeros behind others. -/
theorem writesAddress_iff (ip : NfsIpaddr) :
    WritesAddress ip ↔
      (ip.len = 6 → Doubled ip.addr.toList ∧ ZerosFirst (hostGroups ip.addr.toList)) := by
  constructor
  · intro writes six
    exact (readIpv6_nfsIp2str_iff six []).mp (writes.ipv6 six [])
  · intro regular
    constructor
    · intro six buf
      exact (readIpv6_nfsIp2str_iff six buf).mpr (regular six)
    · intro four buf
      exact readIpv4_nfsIp2str four buf

/-- 2001:db8:1::2. -/
def documentationHost : NfsIpaddr where
  len := 6
  padding := Bytes.zero 3
  addr := ⟨[0x20, 0x01, 0x0d, 0xb8, 0, 1, 0, 0, 0, 0, 0, 0, 0, 0, 0, 2], rfl⟩

example : nfsIp2str documentationHost [] = chars "0120:b80d:0100:::0200" := by decide

theorem documentationHost_not_written : ¬∀ ip : NfsIpaddr, WritesAddress ip := by
  intro writes
  have spells := (writes documentationHost).ipv6 rfl []
  have regular := (readIpv6_nfsIp2str_iff rfl []).mp spells
  exact absurd regular.1.1 (by decide)

end Linguafranca.Nfstat
