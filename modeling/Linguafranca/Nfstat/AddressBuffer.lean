import Linguafranca.Nfstat.AddressText
import Linguafranca.Support.CharBuffer

/-!
# The buffer of `nfs_ip2str`

The callers pass an array of `NFS_IPSTR` characters. The text of an address with its NUL fits
exactly: eight groups of four digits and seven colons are the longest. What is in the array
before does not matter.
-/

namespace Linguafranca.Nfstat

open Text CharBuffer

/-- The size of the buffer for an address. -/
def nfsIpstr : ℕ := 40

/-- One iteration of the loop on the array itself. -/
def ip2strTurnCells (i p : ℕ) : Ip2strState → Option Ip2strState
  | ⟨l, first, buf⟩ =>
      if first = -1 ∧ p = 0 then (put buf l (chars "::")).map fun buf => ⟨l + 2, i, buf⟩
      else if first ≠ -1 ∧ first ≠ -2 ∧ p = 0 then some ⟨l, first, buf⟩
      else
        let first := if first ≠ -1 ∧ p ≠ 0 then -2 else first
        (put buf l (hex4 p)).bind fun buf =>
          let l := l + (hex4 p).length
          if i + 1 ≠ 8 then (put buf l (chars ":")).map fun buf => ⟨l + 1, first, buf⟩
          else some ⟨l, first, buf⟩

/-- The loop over the groups, which fails where a write leaves the buffer. -/
def ip2strLoopCells : ℕ → List ℕ → Ip2strState → Option Ip2strState
  | _, [], s => some s
  | i, p :: rest, s => (ip2strTurnCells i p s).bind (ip2strLoopCells (i + 1) rest)

/-- What `"%d.%d.%d.%d"` prints. -/
def quadText (addr : NfsIpaddr) : List Char :=
  ['.'].intercalate ((addr.addr.toList.take 4).map fun byte => decimal byte.toNat)

/-- The variables and the array after `nfs_ip2str`. -/
def nfsIp2strCells (addr : NfsIpaddr) (buf : List Char) : Option Ip2strState :=
  if addr.len = 4 then (put buf 0 (quadText addr)).map fun buf => ⟨0, -1, buf⟩
  else if addr.len = 6 then ip2strLoopCells 0 (hostGroups addr.addr.toList) ⟨0, -1, buf⟩
  else (put buf 0 (chars "ANY")).map fun buf => ⟨0, -1, buf⟩

section Loop

variable {i p : ℕ} {first : Int} {cells text : List Char} {groups : List ℕ}

/-! ## What one iteration adds -/

/-- What a turn writes for group `i`. -/
def turnText (i p : ℕ) (first : Int) : List Char :=
  if first = -1 ∧ p = 0 then chars "::"
  else if first ≠ -1 ∧ first ≠ -2 ∧ p = 0 then []
  else hex4 p ++ if i + 1 ≠ 8 then chars ":" else []

/-- The state of the compression after a turn: -1 before the first run of zeros, its start within
it, and -2 after it. -/
def turnFirst (i p : ℕ) (first : Int) : Int :=
  if first = -1 ∧ p = 0 then i
  else if first ≠ -1 ∧ p ≠ 0 then -2
  else first

/-- What the loop adds from an iteration on. -/
def loopText : ℕ → List ℕ → Int → List Char
  | _, [], _ => []
  | i, p :: rest, first => turnText i p first ++ loopText (i + 1) rest (turnFirst i p first)

theorem ip2strTurn_settled (i p : ℕ) (first : Int) (text : List Char) :
    ip2strTurn i p (.settled first text) =
      .settled (turnFirst i p first) (text ++ turnText i p first) := by
  by_cases zeros : first = -1 ∧ p = 0
  · rw [Ip2strState.settled, ip2strTurn, if_pos zeros, turnText, if_pos zeros, turnFirst,
      if_pos zeros]
    simp [Ip2strState.settled, sprintf, chars]
  · rw [Ip2strState.settled, ip2strTurn, if_neg zeros, turnText, if_neg zeros, turnFirst,
      if_neg zeros]
    by_cases skipped : first ≠ -1 ∧ first ≠ -2 ∧ p = 0
    · rw [if_pos skipped, if_pos skipped]
      simp [Ip2strState.settled, skipped.2.2]
    · rw [if_neg skipped, if_neg skipped]
      by_cases last : i + 1 = 8
      · simp [last, sprintf, Ip2strState.settled]
      · have whole : (text ++ hex4 p).take (text.length + (hex4 p).length) = text ++ hex4 p := by
          rw [← List.length_append, List.take_length]
        simp only [ne_eq, last, not_false_eq_true, if_true, sprintf, List.take_length, whole]
        simp [Ip2strState.settled, chars, Nat.add_assoc]

theorem ip2strLoop_settled (i : ℕ) (groups : List ℕ) (first : Int) (text : List Char) :
    (ip2strLoop i groups (.settled first text)).buf = text ++ loopText i groups first := by
  induction groups generalizing i first text with
  | nil => simp [ip2strLoop, loopText, Ip2strState.settled]
  | cons p groups ih => rw [ip2strLoop, ip2strTurn_settled, ih, loopText, List.append_assoc]

/-! ## The array follows the string -/

/-- After an iteration there is a NUL behind the string, whatever the array held before the
first one. -/
theorem ip2strTurnCells_settled (front : cells.take text.length = text)
    (ended : first = -1 ∨ Holds cells text)
    (room : text.length + (turnText i p first).length + 1 ≤ cells.length) :
    ∃ after, ip2strTurnCells i p ⟨text.length, first, cells⟩ =
        some ⟨(text ++ turnText i p first).length, turnFirst i p first, after⟩ ∧
      after.length = cells.length ∧ Holds after (text ++ turnText i p first) := by
  by_cases zeros : first = -1 ∧ p = 0
  · rw [turnText, if_pos zeros] at room ⊢
    rcases put_fits room with ⟨after, written, size, holds⟩
    rw [front] at holds
    refine ⟨after, ?_, size, holds⟩
    rw [ip2strTurnCells, if_pos zeros, written, turnFirst, if_pos zeros, List.length_append]
    rfl
  · by_cases skipped : first ≠ -1 ∧ first ≠ -2 ∧ p = 0
    · have holds := ended.resolve_left skipped.1
      rw [ip2strTurnCells, if_neg zeros, if_pos skipped, turnText, if_neg zeros, if_pos skipped,
        turnFirst, if_neg zeros, List.append_nil]
      refine ⟨cells, ?_, rfl, holds⟩
      simp [skipped.2.2]
    · rw [turnText, if_neg zeros, if_neg skipped, List.length_append] at room
      rw [ip2strTurnCells, if_neg zeros, if_neg skipped, turnText, if_neg zeros, if_neg skipped,
        turnFirst, if_neg zeros]
      rcases put_fits (show text.length + (hex4 p).length + 1 ≤ cells.length by omega) with
        ⟨digits, written, size, holds⟩
      rw [front] at holds
      simp only [written, Option.bind_some]
      by_cases last : i + 1 = 8
      · refine ⟨digits, ?_, size, ?_⟩
        · simp [last]
        · simpa [last] using holds
      · simp only [ne_eq, last, not_false_eq_true, if_true] at room ⊢
        have front := holds.take
        rw [List.length_append] at front
        rcases put_fits (show text.length + (hex4 p).length + (chars ":").length + 1 ≤
          digits.length by omega) with ⟨after, colon, same, ends⟩
        rw [front, List.append_assoc] at ends
        refine ⟨after, ?_, same.trans size, ends⟩
        rw [colon, List.length_append, List.length_append, Nat.add_assoc]
        rfl

theorem ip2strLoopCells_settled (holds : Holds cells text)
    (room : text.length + (loopText i groups first).length + 1 ≤ cells.length) :
    ∃ last after, ip2strLoopCells i groups ⟨text.length, first, cells⟩ =
        some ⟨(text ++ loopText i groups first).length, last, after⟩ ∧
      after.length = cells.length ∧ Holds after (text ++ loopText i groups first) := by
  induction groups generalizing i first cells text with
  | nil =>
      refine ⟨first, cells, ?_, rfl, ?_⟩
      · simp [ip2strLoopCells, loopText]
      · simpa [loopText] using holds
  | cons p groups ih =>
      simp only [loopText, List.length_append] at room
      rcases @ip2strTurnCells_settled i p first _ _ holds.take (Or.inr holds) (by omega) with
        ⟨next, turn, size, holdsNext⟩
      rcases @ih (i + 1) (turnFirst i p first) _ _ holdsNext (by
        simp only [List.length_append]
        omega) with ⟨last, after, loop, same, ends⟩
      refine ⟨last, after, ?_, same.trans size, ?_⟩
      · rw [ip2strLoopCells, turn, Option.bind_some, loop, loopText, List.append_assoc]
      · rw [loopText, ← List.append_assoc]
        exact ends

/-- The loop writes its text into an array that has room for it and the NUL. -/
theorem ip2strLoopCells_fits (some_group : groups ≠ [])
    (room : (loopText 0 groups (-1)).length + 1 ≤ cells.length) :
    ∃ last after, ip2strLoopCells 0 groups ⟨0, -1, cells⟩ =
        some ⟨(loopText 0 groups (-1)).length, last, after⟩ ∧
      after.length = cells.length ∧ Holds after (loopText 0 groups (-1)) := by
  cases groups with
  | nil => exact absurd rfl some_group
  | cons p groups =>
      simp only [loopText, List.length_append, Nat.zero_add] at room
      have turn := @ip2strTurnCells_settled 0 p (-1) cells [] rfl (Or.inl rfl) (by
        simp only [List.length_nil]
        omega)
      simp only [List.length_nil, List.nil_append] at turn
      rcases turn with ⟨next, turn, size, holds⟩
      rcases @ip2strLoopCells_settled 1 (turnFirst 0 p (-1)) _ _ groups holds (by omega) with
        ⟨last, after, loop, same, ends⟩
      refine ⟨last, after, ?_, same.trans size, ends⟩
      rw [ip2strLoopCells, turn, Option.bind_some, loop, loopText]

/-! ## How long the text is -/

theorem length_turnText_le (small : p < 65536) :
    (turnText i p first).length ≤ if i + 1 = 8 then 4 else 5 := by
  rw [turnText]
  split
  · simp only [chars]
    split <;> decide
  · split
    · exact Nat.zero_le _
    · rw [List.length_append, length_hex4 small]
      by_cases last : i + 1 = 8
      · simp [last]
      · simp [last, chars]

/-- Seven groups with a colon each and the last one. -/
theorem length_loopText_le (small : ∀ p ∈ groups, p < 65536) (all : i + groups.length = 8) :
    (loopText i groups first).length ≤ 5 * groups.length - 1 := by
  induction groups generalizing i first with
  | nil => simp [loopText]
  | cons p groups ih =>
      simp only [List.length_cons] at all
      have turn := @length_turnText_le i p first (small p List.mem_cons_self)
      have later := @ih (i + 1) (turnFirst i p first)
        (fun p member => small p (List.mem_cons_of_mem _ member)) (by omega)
      simp only [loopText, List.length_append, List.length_cons]
      split at turn
      · omega
      · omega

theorem nul_notMem_hex4 (p : ℕ) : nul ∉ hex4 p := by
  apply @notMem_of_readNumber 16
  · rw [hex4, readNumber_padded (by omega), readNumber_toDigits (by omega) (by omega)]
    rfl
  · decide

theorem nul_notMem_turnText : nul ∉ turnText i p first := by
  rw [turnText]
  split
  · simp only [chars]
    decide
  · split
    · exact List.not_mem_nil
    · intro member
      rcases List.mem_append.mp member with digit | colon
      · exact nul_notMem_hex4 p digit
      · revert colon
        simp only [chars]
        split <;> decide

theorem nul_notMem_loopText : nul ∉ loopText i groups first := by
  induction groups generalizing i first with
  | nil => exact List.not_mem_nil
  | cons p groups ih =>
      intro member
      rcases List.mem_append.mp member with now | later
      · exact nul_notMem_turnText now
      · exact ih later

end Loop

/-! ## The whole text -/

section Text

variable {addr : NfsIpaddr} {buf text : List Char}

theorem length_quadText_le (addr : NfsIpaddr) : (quadText addr).length ≤ 16 := by
  have each : ∀ piece ∈ (addr.addr.toList.take 4).map fun byte => decimal byte.toNat,
      piece.length ≤ 3 := by
    intro piece member
    rcases List.mem_map.mp member with ⟨byte, -, rfl⟩
    have small := byte.toNat_lt
    apply (Nat.length_toDigits_le_iff _ _).mpr
    · omega
    · omega
    · omega
  have whole := @length_intercalate_le '.' _ 3 each
  have four : (addr.addr.toList.take 4).length ≤ 4 := List.length_take_le 4 _
  rw [List.length_map] at whole
  rw [quadText]
  omega

theorem nul_notMem_quadText (addr : NfsIpaddr) : nul ∉ quadText addr := by
  apply notMem_intercalate
  · decide
  · intro piece member
    rcases List.mem_map.mp member with ⟨byte, -, rfl⟩
    apply @notMem_of_readNumber 10
    · rw [readNumber_decimal]
      rfl
    · decide

/-- What `nfs_ip2str` writes. -/
def ip2strText (addr : NfsIpaddr) : List Char :=
  if addr.len = 4 then quadText addr
  else if addr.len = 6 then loopText 0 (hostGroups addr.addr.toList) (-1)
  else chars "ANY"

theorem nfsIp2str_eq (addr : NfsIpaddr) (buf : List Char) : nfsIp2str addr buf = ip2strText addr := by
  rw [nfsIp2str, ip2strText]
  split
  · rfl
  · split
    · have all := length_hostGroups 8 addr.addr.length_toList
      rw [ip2strLoop_stale (List.ne_nil_of_length_pos (by omega)), ip2strLoop_settled]
      rfl
    · rfl

theorem nul_notMem_ip2strText (addr : NfsIpaddr) : nul ∉ ip2strText addr := by
  rw [ip2strText]
  split
  · exact nul_notMem_quadText addr
  · split
    · exact nul_notMem_loopText
    · simp only [chars]
      decide

theorem length_ip2strText_le (addr : NfsIpaddr) : (ip2strText addr).length + 1 ≤ nfsIpstr := by
  rw [ip2strText, nfsIpstr]
  split
  · have short := length_quadText_le addr
    omega
  · split
    · have all := length_hostGroups 8 addr.addr.length_toList
      have short := @length_loopText_le 0 (-1) (hostGroups addr.addr.toList)
        (fun p member => hostGroups_lt member) (by omega)
      omega
    · simp only [chars]
      decide

/-- In any array with room for the text and its NUL the function writes them. -/
theorem nfsIp2strCells_eq (room : (ip2strText addr).length + 1 ≤ buf.length) :
    ∃ l first after, nfsIp2strCells addr buf = some ⟨l, first, after⟩ ∧
      after.length = buf.length ∧ Holds after (ip2strText addr) ∧
      (addr.len = 6 → l = (ip2strText addr).length) := by
  by_cases four : addr.len = 4
  · rw [ip2strText, if_pos four] at room ⊢
    rcases put_fits (show 0 + (quadText addr).length + 1 ≤ buf.length by omega) with
      ⟨after, written, size, holds⟩
    refine ⟨0, -1, after, ?_, size, holds, ?_⟩
    · rw [nfsIp2strCells, if_pos four, written]
      rfl
    · intro six
      rw [four] at six
      exact absurd six (by decide)
  · by_cases six : addr.len = 6
    · rw [ip2strText, if_neg four, if_pos six] at room ⊢
      have all := length_hostGroups 8 addr.addr.length_toList
      rcases ip2strLoopCells_fits (List.ne_nil_of_length_pos (by omega)) room with
        ⟨last, after, loop, size, holds⟩
      refine ⟨_, last, after, ?_, size, holds, fun _ => rfl⟩
      rw [nfsIp2strCells, if_neg four, if_pos six, loop]
    · rw [ip2strText, if_neg four, if_neg six] at room ⊢
      rcases put_fits (show 0 + (chars "ANY").length + 1 ≤ buf.length by omega) with
        ⟨after, written, size, holds⟩
      refine ⟨0, -1, after, ?_, size, holds, fun other => absurd other six⟩
      rw [nfsIp2strCells, if_neg four, if_neg six, written]
      rfl

/-- Whatever is in the array of a caller, the text of an address and its NUL fit, the array then
holds that string, and the loop has counted its length. -/
theorem nfsIp2str_fits (addr : NfsIpaddr) (buf : List Char) (size : buf.length = nfsIpstr) :
    ∃ l first after, nfsIp2strCells addr buf = some ⟨l, first, after⟩ ∧
      after.length = nfsIpstr ∧ string after = nfsIp2str addr (string buf) ∧
      (string after).length + 1 ≤ nfsIpstr ∧ after[(string after).length]? = some nul ∧
      (addr.len = 6 → l = (string after).length) := by
  have short := length_ip2strText_le addr
  rcases nfsIp2strCells_eq (by rw [size]; exact short) with
    ⟨l, first, after, done, same, holds, counted⟩
  have text := holds.string (nul_notMem_ip2strText addr)
  refine ⟨l, first, after, done, same.trans size, ?_, ?_, ?_, ?_⟩
  · rw [text, nfsIp2str_eq]
  · rw [text]
    exact short
  · rw [text]
    exact holds.getElem?
  · rw [text]
    exact counted

end Text

/-- An address of eight groups without a zero. -/
def longestAddr : NfsIpaddr :=
  ⟨6, Bytes.zero 3, ⟨List.replicate 16 255, rfl⟩⟩

theorem nfsIp2str_fits_longestAddr :
    ∃ l first after, nfsIp2strCells longestAddr (List.replicate 40 'x') = some ⟨l, first, after⟩ ∧
      l = (string after).length ∧ (string after).length + 1 ≤ nfsIpstr := by
  rcases nfsIp2str_fits longestAddr (List.replicate 40 'x') rfl with
    ⟨l, first, after, done, -, -, short, -, counted⟩
  exact ⟨l, first, after, done, counted rfl, short⟩

/-- One character less is not enough for it. -/
example : nfsIp2strCells longestAddr (List.replicate 39 'x') = none := by decide

end Linguafranca.Nfstat
