import Linguafranca.Nfstat.Nfs
import Linguafranca.Support.Text

/-!
# The listings in `/proc`

The texts of `nfs.h` and the listing of a rule by `ip_rule_show`. A buffer is the string in it;
`sprintf` at an offset ends the string behind what it prints. The groups of an IPv6 address are
read in host order, the lower byte first.
-/

namespace Linguafranca.Nfstat

open Text

/-- A string of the source. -/
def chars (text : String) : List Char :=
  text.toList

/-- `%d` of a number that is not negative. -/
def decimal (n : ℕ) : List Char :=
  Nat.toDigits 10 n

/-- `%04x`. -/
def hex4 (n : ℕ) : List Char :=
  padded 4 (Nat.toDigits 16 n)

/-- The text is written from position `l` on. -/
def sprintf (buf : List Char) (l : ℕ) (text : List Char) : List Char :=
  buf.take l ++ text

/-- `nfs_port2str`, whose parameter has eight bits. -/
def nfsPort2str (port : UInt8) (buf : List Char) : List Char :=
  if port = 0 then sprintf buf 0 (chars "ANY")
  else sprintf buf 0 (decimal port.toNat)

/-- An array of bytes as one of `__u16` on a little-endian host. -/
def hostGroups : List UInt8 → List ℕ
  | low :: high :: rest => (low.toNat + 256 * high.toNat) :: hostGroups rest
  | _ => []

/-- The variables of the loop of `nfs_ip2str`. -/
structure Ip2strState where
  l : ℕ
  first : Int
  buf : List Char

/-- One iteration, `p` being the group with index `i`. -/
def ip2strTurn (i p : ℕ) : Ip2strState → Ip2strState
  | ⟨l, first, buf⟩ =>
      if first = -1 ∧ p = 0 then ⟨l + 2, i, sprintf buf l (chars "::")⟩
      else if first ≠ -1 ∧ first ≠ -2 ∧ p = 0 then ⟨l, first, buf⟩
      else
        let first := if first ≠ -1 ∧ p ≠ 0 then -2 else first
        let buf := sprintf buf l (hex4 p)
        let l := l + (hex4 p).length
        if i + 1 ≠ 8 then ⟨l + 1, first, sprintf buf l (chars ":")⟩ else ⟨l, first, buf⟩

/-- The loop over the groups from group `i` on. -/
def ip2strLoop : ℕ → List ℕ → Ip2strState → Ip2strState
  | _, [], s => s
  | i, p :: rest, s => ip2strLoop (i + 1) rest (ip2strTurn i p s)

/-- `nfs_ip2str`: the text of an IPv4 or an IPv6 address. -/
def nfsIp2str (addr : NfsIpaddr) (buf : List Char) : List Char :=
  if addr.len = 4 then
    -- "%d.%d.%d.%d"
    sprintf buf 0 (['.'].intercalate ((addr.addr.toList.take 4).map fun byte =>
      decimal byte.toNat))
  else if addr.len = 6 then
    (ip2strLoop 0 (hostGroups addr.addr.toList) ⟨0, -1, buf⟩).buf
  else sprintf buf 0 (chars "ANY")

/-- `nfs_dir2str`: the name of a direction. -/
def nfsDir2str (dir : UInt8) : List Char :=
  if dir = 0 then chars "ALL"
  else if dir = 1 then chars "IN"
  else if dir = 2 then chars "OUT"
  else if dir = 3 then chars "FORWARD"
  else chars "unknown"

/-- What `ip_rule_show` prints behind the name of the entry. The ports are passed as `__u8`. -/
def ruleBody (rule : NfsRule) : List Char :=
  let lip := nfsIp2str rule.lip []
  let lport := nfsPort2str rule.lport.toUInt8 lip
  let rip := nfsIp2str rule.rip lport
  let rport := nfsPort2str rule.rport.toUInt8 rip
  chars "\trule type " ++ decimal rule.typeidx.toNat ++ chars "\n" ++
    chars "\tlocalip:" ++ lip ++ chars "\tlocalport:" ++ lport ++ chars "\n" ++
    chars "\tremoteip:" ++ rip ++ chars "\tremoteport:" ++ rport ++ chars "\n" ++
    (if rule.protocol = 0 then chars "\tprotocal:ANY"
      else chars "\tprotocal:" ++ decimal rule.protocol.toNat) ++
    chars "\tdirection:" ++ nfsDir2str rule.dir ++ chars "\n"

/-- `ip_rule_show`: the listing of a rule under its name. -/
def ipRuleShow (name : List Char) (rule : NfsRule) : List Char :=
  name ++ chars "\n" ++ ruleBody rule

theorem readNumber_decimal (n : ℕ) : readNumber 10 (decimal n) = some n := by
  apply readNumber_toDigits
  · omega
  · omega

/-! ## What the loop prints -/

/-- The offset is the length of the string. -/
def Ip2strState.settled (first : Int) (buf : List Char) : Ip2strState :=
  ⟨buf.length, first, buf⟩

/-- The groups with single colons between them. -/
def joined (groups : List ℕ) : List Char :=
  [':'].intercalate (groups.map hex4)

section Loop

variable {i p : ℕ} {first : Int} {buf : List Char} {groups front rest : List ℕ}

theorem joined_cons (p : ℕ) (others : groups ≠ []) :
    joined (p :: groups) = hex4 p ++ ':' :: joined groups := by
  cases groups with
  | nil => exact absurd rfl others
  | cons next groups => simp [joined, List.intercalate_cons_cons]

/-- Nothing of what was in the buffer is left. -/
theorem ip2strTurn_stale (stale : List Char) :
    ip2strTurn i p ⟨0, -1, stale⟩ = ip2strTurn i p (.settled (-1) []) := by
  simp [ip2strTurn, Ip2strState.settled, sprintf]

theorem ip2strTurn_group (printed : first = -2 ∨ p ≠ 0) :
    ip2strTurn i p (.settled first buf) =
      .settled (if first = -1 then -1 else -2)
        (buf ++ hex4 p ++ if i + 1 ≠ 8 then [':'] else []) := by
  have notZeros : ¬(first = -1 ∧ p = 0) := by
    rintro ⟨rfl, rfl⟩
    simp at printed
  have notSkipped : ¬(first ≠ -1 ∧ first ≠ -2 ∧ p = 0) := by
    rintro ⟨-, other, rfl⟩
    simp [other] at printed
  have next : (if first ≠ -1 ∧ p ≠ 0 then (-2 : Int) else first) =
      if first = -1 then -1 else -2 := by
    rcases printed with rfl | some_group
    · simp
    · by_cases before : first = -1
      · simp [before]
      · simp [before, some_group]
  rw [Ip2strState.settled, ip2strTurn, if_neg notZeros, if_neg notSkipped, next]
  by_cases last : i + 1 = 8
  · simp [last, sprintf, Ip2strState.settled]
  · simp only [ne_eq, last, not_false_eq_true, if_true, sprintf, List.take_length,
      ← List.length_append]
    simp [Ip2strState.settled, Nat.add_assoc, chars]

theorem ip2strTurn_zero (before : first = -1) :
    ip2strTurn i 0 (.settled first buf) = .settled i (buf ++ [':', ':']) := by
  simp [ip2strTurn, Ip2strState.settled, before, sprintf, chars]

theorem ip2strTurn_skipped (run : 0 ≤ first) :
    ip2strTurn i 0 (.settled first buf) = .settled first buf := by
  have notBefore : first ≠ -1 := by omega
  have notBehind : first ≠ -2 := by omega
  simp [ip2strTurn, Ip2strState.settled, notBefore, notBehind]

/-- Without a zero to compress, the groups are printed with colons between them. -/
theorem ip2strLoop_joined (plain : first = -2 ∨ first = -1 ∧ 0 ∉ groups)
    (all : i + groups.length = 8) :
    ip2strLoop i groups (.settled first buf) = .settled first (buf ++ joined groups) := by
  induction groups generalizing i buf with
  | nil => simp [ip2strLoop, joined]
  | cons p groups ih =>
      have printed : first = -2 ∨ p ≠ 0 := by
        apply plain.imp_right
        rintro ⟨-, without⟩ rfl
        exact without List.mem_cons_self
      have same : (if first = -1 then (-1 : Int) else -2) = first := by
        rcases plain with rfl | ⟨rfl, -⟩ <;> rfl
      have later : first = -2 ∨ first = -1 ∧ 0 ∉ groups := by
        apply plain.imp_right
        rintro ⟨before, without⟩
        exact ⟨before, fun member => without (List.mem_cons_of_mem p member)⟩
      simp only [List.length_cons] at all
      rw [ip2strLoop, ip2strTurn_group printed, same]
      cases groups with
      | nil =>
          have last : i + 1 = 8 := by simpa using all
          simp [ip2strLoop, joined, last]
      | cons next groups =>
          have more : i + 1 ≠ 8 := by
            simp only [List.length_cons] at all
            omega
          rw [ih later (by omega), if_pos more, joined_cons p (by simp)]
          simp

/-- In a run of zeros nothing is printed up to the first other group. -/
theorem ip2strLoop_zeros (run : 0 ≤ first) (all : i + groups.length = 8) :
    ∃ last, ip2strLoop i groups (.settled first buf) =
      .settled last (buf ++ joined (groups.dropWhile (· = 0))) := by
  induction groups generalizing i with
  | nil => exact ⟨first, by simp [ip2strLoop, joined]⟩
  | cons p groups ih =>
      simp only [List.length_cons] at all
      by_cases zero : p = 0
      · subst zero
        rw [ip2strLoop, ip2strTurn_skipped run]
        simpa using ih (by omega)
      · refine ⟨-2, ?_⟩
        have behind : first ≠ -1 := by omega
        have whole := @ip2strLoop_joined i (-2) buf (p :: groups) (Or.inl rfl) (by simpa using all)
        rw [ip2strLoop, ip2strTurn_group (Or.inr zero)] at whole ⊢
        simpa [behind, zero] using whole

/-- Before the first zero every group has a colon behind it. -/
theorem ip2strLoop_front (without : 0 ∉ front) (all : i + (front ++ 0 :: rest).length = 8) :
    ∃ last, ip2strLoop i (front ++ 0 :: rest) (.settled (-1) buf) =
      .settled last (buf ++ front.flatMap (fun p => hex4 p ++ [':']) ++ [':', ':'] ++
        joined (rest.dropWhile (· = 0))) := by
  induction front generalizing i buf with
  | nil =>
      simp only [List.nil_append, List.length_cons] at all
      rw [List.nil_append, ip2strLoop, ip2strTurn_zero rfl]
      simpa using @ip2strLoop_zeros (i + 1) i (buf ++ [':', ':']) rest (by omega) (by omega)
  | cons p front ih =>
      have some_group : p ≠ 0 := by
        rintro rfl
        exact without List.mem_cons_self
      have more : i + 1 ≠ 8 := by
        simp only [List.cons_append, List.length_cons, List.length_append] at all
        omega
      rw [List.cons_append, ip2strLoop, ip2strTurn_group (Or.inr some_group), if_pos rfl,
        if_pos more]
      have later := @ih (i + 1) (buf ++ hex4 p ++ [':'])
        (fun member => without (List.mem_cons_of_mem p member)) (by
          simp only [List.cons_append, List.length_cons, List.length_append] at all ⊢
          omega)
      simpa using later

end Loop

section Text

variable {addr : NfsIpaddr} {buf : List Char} {front rest : List ℕ}

theorem length_hostGroups (count : ℕ) {bytes : List UInt8} (even : bytes.length = 2 * count) :
    (hostGroups bytes).length = count := by
  induction count generalizing bytes with
  | zero =>
      obtain rfl := List.eq_nil_of_length_eq_zero even
      rfl
  | succ count ih =>
      rcases bytes with _ | ⟨low, _ | ⟨high, bytes⟩⟩
      · simp at even
      · simp only [List.length_cons, List.length_nil] at even
        omega
      · simp only [List.length_cons] at even
        rw [hostGroups, List.length_cons, ih (by omega)]

theorem ip2strLoop_stale {groups : List ℕ} (some_group : groups ≠ []) :
    ip2strLoop 0 groups ⟨0, -1, buf⟩ = ip2strLoop 0 groups (.settled (-1) []) := by
  cases groups with
  | nil => exact absurd rfl some_group
  | cons p groups => rw [ip2strLoop, ip2strLoop, ip2strTurn_stale]

theorem nfsIp2str_of_not_mem (six : addr.len = 6) (without : 0 ∉ hostGroups addr.addr.toList) :
    nfsIp2str addr buf = joined (hostGroups addr.addr.toList) := by
  have all := length_hostGroups 8 addr.addr.length_toList
  have loop := @ip2strLoop_joined 0 (-1) [] _ (Or.inr ⟨rfl, without⟩) (by omega)
  have some_group := List.ne_nil_of_length_pos (by omega : 0 < (hostGroups addr.addr.toList).length)
  rw [nfsIp2str, if_neg (by simp [six]), if_pos six, ip2strLoop_stale some_group, loop]
  rfl

/-- The groups in front of the first zero keep the colons behind them. -/
theorem nfsIp2str_of_zero (six : addr.len = 6)
    (split : hostGroups addr.addr.toList = front ++ 0 :: rest) (without : 0 ∉ front) :
    nfsIp2str addr buf = front.flatMap (fun p => hex4 p ++ [':']) ++ [':', ':'] ++
      joined (rest.dropWhile (· = 0)) := by
  have all := length_hostGroups 8 addr.addr.length_toList
  rw [split] at all
  rcases @ip2strLoop_front 0 [] front rest without (by omega) with ⟨last, loop⟩
  rw [nfsIp2str, if_neg (by simp [six]), if_pos six, split, ip2strLoop_stale (by simp), loop]
  rfl

end Text

end Linguafranca.Nfstat
