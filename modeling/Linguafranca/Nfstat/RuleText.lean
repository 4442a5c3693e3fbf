import Linguafranca.Nfstat.AddressText

/-!
# Which rule a listing shows

The fields of a rule can be read off its listing: none of their texts has a tabulator or a new
line in it, and each text is that of one value. But the ports are passed on as bytes, so that
ports with the same lower byte look alike, and a multiple of 256 looks like any port.
-/

namespace Linguafranca.Nfstat

open Text

/-- The addresses of the rule are IPv4 addresses or left open, and it has a direction. -/
structure Listable (rule : NfsRule) : Prop where
  lip : rule.lip.len = 0 ∨ rule.lip.len = 4
  rip : rule.rip.len = 0 ∨ rule.rip.len = 4
  dir : rule.dir ≤ 3

/-- The bytes behind an address are no part of it. -/
def SameAddress (first second : NfsIpaddr) : Prop :=
  first.len = second.len ∧
    (first.len = 4 → first.addr.toList.take 4 = second.addr.toList.take 4)

/-- The two rules differ at most in their ports. -/
structure AlikeButPorts (first second : NfsRule) : Prop where
  typeidx : first.typeidx = second.typeidx
  protocol : first.protocol = second.protocol
  dir : first.dir = second.dir
  lip : SameAddress first.lip second.lip
  rip : SameAddress first.rip second.rip

/-- A port is printed as `ANY` exactly if it is zero. -/
def AnyMeansZero (port : UInt16) : Prop :=
  ∀ buf, nfsPort2str port.toUInt8 buf = chars "ANY" ↔ port = 0

/-- The listings tell the rules apart and show which ports are open. -/
structure Identified (first second : NfsRule) : Prop where
  same : ruleBody first = ruleBody second →
    AlikeButPorts first second ∧ first.lport = second.lport ∧ first.rport = second.rport
  any : ∀ rule ∈ [first, second], AnyMeansZero rule.lport ∧ AnyMeansZero rule.rport

/-- The port is zero if its lower byte is. -/
def LowByteTells (port : UInt16) : Prop :=
  port.toNat % 256 = 0 → port = 0

/-- The ports of two rules have the same low bytes. -/
def SameLowBytes (first second : NfsRule) : Prop :=
  first.lport.toNat % 256 = second.lport.toNat % 256 ∧
    first.rport.toNat % 256 = second.rport.toNat % 256

/-- There is no separator of the listing in the text. -/
def Plain (text : List Char) : Prop :=
  '\t' ∉ text ∧ '\n' ∉ text

variable {first second : NfsRule} {ip other : NfsIpaddr} {buf : List Char}

/-! ## The texts of the fields -/

theorem plain_any : Plain (chars "ANY") := by
  simp [Plain, chars]

theorem plain_decimal (n : ℕ) : Plain (decimal n) := by
  have read : (readNumber 10 (decimal n)).isSome := by
    simp only [readNumber_decimal, Option.isSome_some]
  constructor
  · apply notMem_of_readNumber read
    rfl
  · apply notMem_of_readNumber read
    rfl

theorem decimal_injective {n m : ℕ} (same : decimal n = decimal m) : n = m := by
  apply toDigits_injective _ _ same
  · omega
  · omega

theorem decimal_ne_any (n : ℕ) : decimal n ≠ chars "ANY" := by
  intro same
  have read := readNumber_decimal n
  have none : readNumber 10 (chars "ANY") = none := by decide
  rw [same, none] at read
  simp at read

theorem nfsPort2str_eq (port : UInt8) (buf : List Char) :
    nfsPort2str port buf = if port = 0 then chars "ANY" else decimal port.toNat := by
  simp [nfsPort2str, sprintf]

theorem plain_nfsPort2str (port : UInt8) (buf : List Char) : Plain (nfsPort2str port buf) := by
  rw [nfsPort2str_eq]
  split
  · exact plain_any
  · exact plain_decimal port.toNat

theorem nfsPort2str_eq_any_iff (port : UInt8) (buf : List Char) :
    nfsPort2str port buf = chars "ANY" ↔ port = 0 := by
  rw [nfsPort2str_eq]
  split
  · next zero => simp [zero]
  · next other => simp only [decimal_ne_any, other]

theorem nfsPort2str_injective {port next : UInt8} {buf after : List Char}
    (same : nfsPort2str port buf = nfsPort2str next after) : port = next := by
  by_cases zero : port = 0
  · have any := (nfsPort2str_eq_any_iff port buf).mpr zero
    rw [same, nfsPort2str_eq_any_iff] at any
    rw [zero, any]
  · have notAny := mt (nfsPort2str_eq_any_iff port buf).mp zero
    rw [same, nfsPort2str_eq_any_iff] at notAny
    rw [nfsPort2str_eq, nfsPort2str_eq, if_neg zero, if_neg notAny] at same
    exact UInt8.toNat_inj.mp (decimal_injective same)

theorem plain_nfsIp2str (listed : ip.len = 0 ∨ ip.len = 4) (buf : List Char) :
    Plain (nfsIp2str ip buf) := by
  rcases listed with zero | four
  · simpa [nfsIp2str, zero, sprintf] using plain_any
  · have plain : ∀ piece ∈ (ip.addr.toList.take 4).map fun byte => decimal byte.toNat,
        Plain piece := by
      intro piece member
      rcases List.mem_map.mp member with ⟨byte, -, rfl⟩
      exact plain_decimal byte.toNat
    rw [nfsIp2str, if_pos four, sprintf, List.take_zero, List.nil_append]
    constructor
    · apply notMem_intercalate (by decide)
      intro piece member
      exact (plain piece member).1
    · apply notMem_intercalate (by decide)
      intro piece member
      exact (plain piece member).2

theorem nfsIp2str_of_zero_len (zero : ip.len = 0) (buf : List Char) :
    nfsIp2str ip buf = chars "ANY" := by
  simp [nfsIp2str, zero, sprintf]

theorem nfsIp2str_ne_any (four : ip.len = 4) (buf : List Char) :
    nfsIp2str ip buf ≠ chars "ANY" := by
  intro same
  have read := readIpv4_nfsIp2str four buf
  have none : readIpv4 (chars "ANY") = none := by decide
  rw [same, none] at read
  simp at read

/-- Addresses have the same text exactly if they are the same. -/
theorem nfsIp2str_eq_iff {after : List Char} (listed : ip.len = 0 ∨ ip.len = 4)
    (listedOther : other.len = 0 ∨ other.len = 4) :
    nfsIp2str ip buf = nfsIp2str other after ↔ SameAddress ip other := by
  rcases listed with zero | four
  · rw [nfsIp2str_of_zero_len zero]
    rcases listedOther with zeroOther | fourOther
    · rw [nfsIp2str_of_zero_len zeroOther]
      simp [SameAddress, zero, zeroOther]
    · apply iff_of_false (nfsIp2str_ne_any fourOther after).symm
      rintro ⟨lengths, -⟩
      simp [zero, fourOther] at lengths
  · rcases listedOther with zeroOther | fourOther
    · rw [nfsIp2str_of_zero_len zeroOther]
      apply iff_of_false (nfsIp2str_ne_any four buf)
      rintro ⟨lengths, -⟩
      simp [four, zeroOther] at lengths
    · simp only [SameAddress, four, fourOther, true_and, true_implies]
      constructor
      · intro same
        have read := readIpv4_nfsIp2str four buf
        rw [same, readIpv4_nfsIp2str fourOther after] at read
        exact (Option.some.inj read).symm
      · intro same
        simp only [nfsIp2str, four, fourOther, if_true, same, sprintf, List.take_zero]

theorem plain_nfsDir2str (dir : UInt8) : Plain (nfsDir2str dir) := by
  simp only [nfsDir2str]
  split_ifs <;> simp [Plain, chars]

theorem nfsDir2str_injective {dir next : UInt8} (small : dir ≤ 3) (smallNext : next ≤ 3)
    (same : nfsDir2str dir = nfsDir2str next) : dir = next := by
  have all : ∀ a b : Fin 4,
      nfsDir2str (UInt8.ofNat a) = nfsDir2str (UInt8.ofNat b) → a = b := by decide
  have below : dir.toNat < 4 := Nat.lt_succ_of_le (UInt8.le_iff_toNat_le.mp small)
  have belowNext : next.toNat < 4 := Nat.lt_succ_of_le (UInt8.le_iff_toNat_le.mp smallNext)
  apply UInt8.toNat_inj.mp
  have equal := all ⟨dir.toNat, below⟩ ⟨next.toNat, belowNext⟩ (by simpa using same)
  simpa using equal

/-! ## The listing -/

/-- The listing as labels, texts and what ends them. -/
theorem ruleBody_eq (rule : NfsRule) :
    ruleBody rule =
      chars "\trule type " ++ (decimal rule.typeidx.toNat ++ '\n' ::
      (chars "\tlocalip:" ++ (nfsIp2str rule.lip [] ++ '\t' ::
      (chars "localport:" ++ (nfsPort2str rule.lport.toUInt8 [] ++ '\n' ::
      (chars "\tremoteip:" ++ (nfsIp2str rule.rip (nfsPort2str rule.lport.toUInt8 []) ++ '\t' ::
      (chars "remoteport:" ++ (nfsPort2str rule.rport.toUInt8 [] ++ '\n' ::
      (chars "\tprotocal:" ++ (nfsPort2str rule.protocol [] ++ '\t' ::
      (chars "direction:" ++ (nfsDir2str rule.dir ++ '\n' :: []))))))))))))) := by
  have protocol : (if rule.protocol = 0 then chars "\tprotocal:ANY"
      else chars "\tprotocal:" ++ decimal rule.protocol.toNat) =
        chars "\tprotocal:" ++ nfsPort2str rule.protocol [] := by
    rw [nfsPort2str_eq]
    split <;> rfl
  have stale : ∀ port buf, nfsPort2str port buf = nfsPort2str port [] := by
    intro port buf
    rw [nfsPort2str_eq, nfsPort2str_eq]
  have newline : chars "\n" = ['\n'] := rfl
  have localport : chars "\tlocalport:" = '\t' :: chars "localport:" := rfl
  have remoteport : chars "\tremoteport:" = '\t' :: chars "remoteport:" := rfl
  have direction : chars "\tdirection:" = '\t' :: chars "direction:" := rfl
  simp only [ruleBody, protocol, newline, localport, remoteport, direction, List.append_assoc,
    List.cons_append, List.nil_append, stale _ (nfsIp2str _ _)]

theorem toUInt8_eq_iff (port next : UInt16) :
    port.toUInt8 = next.toUInt8 ↔ port.toNat % 256 = next.toNat % 256 := by
  rw [← UInt8.toNat_inj]
  simp

theorem ruleBody_eq_iff (listed : Listable first) (listedSecond : Listable second) :
    ruleBody first = ruleBody second ↔ AlikeButPorts first second ∧ SameLowBytes first second := by
  rw [ruleBody_eq, ruleBody_eq]
  constructor
  · intro same
    rcases field_injective (plain_decimal _).2 (plain_decimal _).2 same with ⟨typeidx, same⟩
    rcases field_injective (plain_nfsIp2str listed.lip _).1 (plain_nfsIp2str listedSecond.lip _).1
      same with ⟨lip, same⟩
    rcases field_injective (plain_nfsPort2str _ _).2 (plain_nfsPort2str _ _).2 same with
      ⟨lport, same⟩
    rcases field_injective (plain_nfsIp2str listed.rip _).1 (plain_nfsIp2str listedSecond.rip _).1
      same with ⟨rip, same⟩
    rcases field_injective (plain_nfsPort2str _ _).2 (plain_nfsPort2str _ _).2 same with
      ⟨rport, same⟩
    rcases field_injective (plain_nfsPort2str _ _).1 (plain_nfsPort2str _ _).1 same with
      ⟨protocol, same⟩
    rcases field_injective (plain_nfsDir2str _).2 (plain_nfsDir2str _).2 same with ⟨dir, -⟩
    refine ⟨⟨?_, nfsPort2str_injective protocol,
      nfsDir2str_injective listed.dir listedSecond.dir dir,
      (nfsIp2str_eq_iff listed.lip listedSecond.lip).mp lip,
      (nfsIp2str_eq_iff listed.rip listedSecond.rip).mp rip⟩, ?_, ?_⟩
    · exact UInt8.toNat_inj.mp (decimal_injective typeidx)
    · exact (toUInt8_eq_iff _ _).mp (nfsPort2str_injective lport)
    · exact (toUInt8_eq_iff _ _).mp (nfsPort2str_injective rport)
  · rintro ⟨alike, lport, rport⟩
    rw [alike.typeidx, alike.protocol, alike.dir,
      (nfsIp2str_eq_iff listed.lip listedSecond.lip).mpr alike.lip, (toUInt8_eq_iff _ _).mpr lport,
      (toUInt8_eq_iff _ _).mpr rport, (nfsIp2str_eq_iff listed.rip listedSecond.rip).mpr alike.rip]

/-- The name in front is a line of its own. -/
theorem ipRuleShow_eq_iff {name next : List Char} (line : '\n' ∉ name) (nextLine : '\n' ∉ next) :
    ipRuleShow name first = ipRuleShow next second ↔
      name = next ∧ ruleBody first = ruleBody second := by
  have newline : chars "\n" = ['\n'] := rfl
  simp only [ipRuleShow, newline, List.append_assoc, List.cons_append, List.nil_append]
  constructor
  · intro same
    exact cut_injective line nextLine same
  · rintro ⟨rfl, body⟩
    rw [body]

theorem anyMeansZero_iff (port : UInt16) : AnyMeansZero port ↔ LowByteTells port := by
  have low : port.toUInt8 = 0 ↔ port.toNat % 256 = 0 := toUInt8_eq_iff port 0
  simp only [AnyMeansZero, LowByteTells, nfsPort2str_eq_any_iff, low]
  constructor
  · intro any
    exact (any []).mp
  · intro tells _
    refine ⟨tells, ?_⟩
    rintro rfl
    rfl

/-- Listings identify two rules exactly if no port of theirs is a multiple of 256 other than
zero, and the rules do not differ in just the upper bytes of ports. -/
theorem identified_iff (first second : NfsRule) (listed : Listable first)
    (listedSecond : Listable second) :
    Identified first second ↔
      (∀ rule ∈ [first, second], LowByteTells rule.lport ∧ LowByteTells rule.rport) ∧
        (AlikeButPorts first second → SameLowBytes first second →
          first.lport = second.lport ∧ first.rport = second.rport) := by
  have body := ruleBody_eq_iff listed listedSecond
  have any : (∀ rule ∈ [first, second], AnyMeansZero rule.lport ∧ AnyMeansZero rule.rport) ↔
      ∀ rule ∈ [first, second], LowByteTells rule.lport ∧ LowByteTells rule.rport := by
    simp only [anyMeansZero_iff]
  constructor
  · rintro ⟨same, shown⟩
    refine ⟨any.mp shown, ?_⟩
    intro alike low
    exact (same (body.mpr ⟨alike, low⟩)).2
  · rintro ⟨shown, apart⟩
    refine ⟨?_, any.mpr shown⟩
    intro same
    rcases body.mp same with ⟨alike, low⟩
    exact ⟨alike, apart alike low⟩

/-- A rule for what comes in at a port of a host, over TCP. -/
def serverRule (lport : UInt16) : NfsRule where
  lip := ⟨4, Bytes.zero 3, ⟨[10, 0, 0, 1, 0, 0, 0, 0, 0, 0, 0, 0, 0, 0, 0, 0], rfl⟩⟩
  rip := NfsIpaddr.zero
  lport := lport
  rport := 0
  protocol := 6
  dir := 1
  typeidx := 0

theorem listable_serverRule (lport : UInt16) : Listable (serverRule lport) where
  lip := Or.inr rfl
  rip := Or.inl rfl
  dir := by
    change (1 : UInt8) ≤ 3
    decide

theorem identified_for_serverRules : Identified (serverRule 22) (serverRule 80) := by
  have identified := identified_iff (serverRule 22) (serverRule 80) (listable_serverRule 22)
    (listable_serverRule 80)
  apply identified.mpr
  constructor
  · simp [LowByteTells, serverRule]
  · intro _ low
    exact absurd low.1 (by decide)

/-- Ports 80 and 336 have the same lower byte. -/
theorem serverRules_not_identified :
    ¬∀ first second : NfsRule, Listable first → Listable second → Identified first second := by
  intro identified
  have rules := identified (serverRule 80) (serverRule 336) (listable_serverRule 80)
    (listable_serverRule 336)
  have alike : AlikeButPorts (serverRule 80) (serverRule 336) := by
    refine ⟨rfl, rfl, rfl, ⟨rfl, fun _ => rfl⟩, ⟨rfl, fun _ => rfl⟩⟩
  have body := (ruleBody_eq_iff (listable_serverRule 80) (listable_serverRule 336)).mpr
    ⟨alike, by decide, by decide⟩
  exact absurd (rules.same body).2.1 (by decide)

end Linguafranca.Nfstat
