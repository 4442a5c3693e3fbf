import Linguafranca.Nfstat.RuleLookup

/-!
# Rules that overlap

Two rules overlap when `rulecmp` is zero between them: where both care about a field, they ask
for the same. An address counts as the same when as many of its bytes agree as its tag says.
-/

namespace Linguafranca.Nfstat

open SearchTree Wildcard Run

theorem portcmp_eq_zero_iff {src dst : UInt16} :
    portcmp src dst = 0 ↔ src = 0 ∨ dst = 0 ∨ src = dst := by
  unfold portcmp
  split
  · next cares =>
      simp only [cares, false_or]
      split
      · next higher => simpa using (UInt16.ne_of_lt higher).symm
      · next notHigher =>
          split
          · next lower => simpa using UInt16.ne_of_lt lower
          · next notLower =>
              simpa using UInt16.le_antisymm (UInt16.not_lt.mp notHigher)
                (UInt16.not_lt.mp notLower)
  · next blank =>
      simp only [true_iff]
      rcases Classical.not_and_iff_not_or_not.mp blank with zero | zero
      · exact Or.inl (not_not.mp zero)
      · exact Or.inr (Or.inl (not_not.mp zero))

theorem ipcmp_eq_zero_iff {src dst : NfsIpaddr} :
    ipcmp src dst = 0 ↔ src.len = 0 ∨ dst.len = 0 ∨ (src.len = dst.len ∧
      src.addr.1.take src.len.toNat = dst.addr.1.take src.len.toNat) := by
  unfold ipcmp
  split
  · next cares =>
      simp only [cares, false_or]
      split
      · next higher => simpa using fun same => absurd same (UInt8.ne_of_lt higher).symm
      · next notHigher =>
          split
          · next lower => simpa using fun same => absurd same (UInt8.ne_of_lt lower)
          · next notLower =>
              have same := UInt8.le_antisymm (UInt8.not_lt.mp notHigher)
                (UInt8.not_lt.mp notLower)
              rw [Bytes.memcmp_eq_zero_iff (by simp [src.addr.2, dst.addr.2])]
              simp [same]
  · next blank =>
      simp only [true_iff]
      rcases Classical.not_and_iff_not_or_not.mp blank with zero | zero
      · exact Or.inl (not_not.mp zero)
      · exact Or.inr (Or.inl (not_not.mp zero))

theorem first_nonzero_eq_zero_iff {first rest : Int} :
    (if first ≠ 0 then first else rest) = 0 ↔ first = 0 ∧ rest = 0 := by
  split
  · next some => simp [some]
  · next none => simp [not_not.mp none]

/-- What two rules that overlap agree on. -/
structure Ties (src dst : NfsRule) : Prop where
  protocol : src.protocol = dst.protocol
  dir : src.dir = nfsAll ∨ dst.dir = nfsAll ∨ src.dir = dst.dir
  lport : src.lport = 0 ∨ dst.lport = 0 ∨ src.lport = dst.lport
  rport : src.rport = 0 ∨ dst.rport = 0 ∨ src.rport = dst.rport
  lip : ipcmp src.lip dst.lip = 0
  rip : ipcmp src.rip dst.rip = 0

theorem rulecmp_eq_zero_iff_ties {src dst : NfsRule} : rulecmp src dst = 0 ↔ Ties src dst := by
  unfold rulecmp
  split
  · next higher =>
      simpa using fun ties : Ties src dst => UInt8.ne_of_lt higher ties.protocol.symm
  · next notHigher =>
      split
      · next lower => simpa using fun ties : Ties src dst => UInt8.ne_of_lt lower ties.protocol
      · next notLower =>
          have protocol := UInt8.le_antisymm (UInt8.not_lt.mp notHigher)
            (UInt8.not_lt.mp notLower)
          split
          · next above =>
              have apart := (UInt8.ne_of_lt above.2.2).symm
              simpa using fun ties : Ties src dst => by simpa [above, apart] using ties.dir
          · next notAbove =>
              split
              · next below =>
                  have apart := UInt8.ne_of_lt below.2.2
                  simpa using fun ties : Ties src dst => by simpa [below, apart] using ties.dir
              · next notBelow =>
                  simp only [first_nonzero_eq_zero_iff, and_true, portcmp_eq_zero_iff]
                  constructor
                  · rintro ⟨lport, rport, lip, rip⟩
                    refine ⟨protocol, ?_, lport, rport, lip, rip⟩
                    by_contra differ
                    simp only [not_or] at differ
                    rcases differ with ⟨cares, caresToo, apart⟩
                    rcases UInt8.lt_or_lt_of_ne apart with lower | higher
                    · exact notBelow ⟨cares, caresToo, lower⟩
                    · exact notAbove ⟨cares, caresToo, higher⟩
                  · intro ties
                    exact ⟨ties.lport, ties.rport, ties.lip, ties.rip⟩

end Linguafranca.Nfstat
