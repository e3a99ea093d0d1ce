import Aiopp.Socket

/-!
Round trips of addresses: through their text, through the socket address of the kernel, and
from four octets. All of them rest on one order of the bytes of a word.
-/
namespace Aiopp
open Socket

namespace Socket

/-- What is expected of `inet_aton`: it reads back what `inet_ntoa` prints. -/
def ReadsBack (inet_aton : List UInt8 → Option UInt32) : Prop :=
  ∀ addr, inet_aton (inet_ntoa addr) = some addr

theorem octets_ofOctets (oct0 oct1 oct2 oct3 : UInt8) :
    octets (IpAddress.ofOctets oct0 oct1 oct2 oct3).ipv4 = [oct0, oct1, oct2, oct3] := by
  simp only [octets, IpAddress.ofOctets, UInt32.shiftRight_or, UInt32.toUInt8_or, List.cons.injEq]
  refine ⟨?_,?_,?_,?_,trivial⟩
  all_goals
    apply UInt8.toBitVec_inj.mp
    apply BitVec.eq_of_getLsbD_eq
    intro i inside
    simp [inside]
  all_goals grind

theorem ofOctets_octets (addr : UInt32) :
    (IpAddress.ofOctets addr.toUInt8 (addr >>> 8).toUInt8 (addr >>> 16).toUInt8
      (addr >>> 24).toUInt8).ipv4 = addr := by
  apply UInt32.toBitVec_inj.mp
  apply BitVec.eq_of_getLsbD_eq
  intro i inside
  simp [IpAddress.ofOctets, -UInt32.toUInt32_toUInt8]
  grind

theorem ntohs_htons (port : UInt16) : ntohs (htons port) = port := by
  apply UInt16.toBitVec_inj.mp
  apply BitVec.eq_of_getLsbD_eq
  intro i inside
  simp [ntohs, htons]
  grind

theorem intercalate_octets (oct0 oct1 oct2 oct3 : UInt8) :
    [dot].intercalate ([oct0, oct1, oct2, oct3].map fun octet => Decimal.digits octet.toNat) =
      Decimal.digits oct0.toNat ++ dot :: Decimal.digits oct1.toNat ++
        dot :: Decimal.digits oct2.toNat ++ dot :: Decimal.digits oct3.toNat := by
  simp [List.intercalate, List.intersperse]

theorem inet_ntoa_bytes (addr : UInt32) :
    ∀ c ∈ inet_ntoa addr, Decimal.isDigit c = true ∨ c = dot := by
  intro c member
  rw [inet_ntoa, octets, intercalate_octets] at member
  simp only [List.append_assoc, List.cons_append, List.mem_append, List.mem_cons] at member
  rcases member with digit | same | digit | same | digit | same | digit
  all_goals first
    | exact .inl (Decimal.digits_isDigit _ c digit)
    | exact .inr same

theorem inet_ntoa_plain {c : UInt8} (letter : Decimal.isDigit c = false) (apart : c ≠ dot)
    (addr : UInt32) : c ∉ inet_ntoa addr := by
  intro member
  rcases inet_ntoa_bytes addr c member with digit | same
  · simp [letter] at digit
  · exact apart same

theorem c_str_inet_ntoa (addr : UInt32) : c_str (inet_ntoa addr) = inet_ntoa addr := by
  apply List.takeWhile_eq_self_iff.mpr
  intro c member
  have terminator := inet_ntoa_plain (c := 0) (by decide) (by decide) addr
  rw [decide_eq_true_eq]
  rintro rfl
  exact terminator member

theorem readOctet_digits (octet : UInt8) :
    readOctet (Decimal.digits octet.toNat) = some octet := by
  have small : octet.toNat ≤ 255 := by
    have bound := octet.toNat_lt
    omega
  rw [readOctet, Decimal.value_digits, if_pos]
  · simp
  · exact ⟨List.isEmpty_eq_false_iff.mpr (Decimal.digits_nonempty _),
      List.all_eq_true.mpr (Decimal.digits_isDigit _),small⟩

theorem dottedQuad_reads : ReadsBack dottedQuad := by
  intro addr
  have parts : (inet_ntoa addr).splitOn dot =
      (octets addr).map fun octet => Decimal.digits octet.toNat := by
    apply List.splitOn_intercalate
    · intro part member
      obtain ⟨octet,_,rfl⟩ := List.mem_map.mp member
      exact Decimal.not_mem_digits (by decide) _
    · simp [octets]
  rw [dottedQuad, parts]
  simp only [octets, List.map_cons, List.map_nil, readOctet_digits, ofOctets_octets]

end Socket

namespace IpAddressPort
variable {inet_aton : List UInt8 → Option UInt32}

theorem parse_toString (reads : ReadsBack inet_aton) (a : IpAddressPort) :
    parse inet_aton a.toString = some (some a) := by
  have first : colon ∉ inet_ntoa a.address.ipv4 := inet_ntoa_plain (by decide) (by decide) _
  rw [toString, IpAddress.toString, parse_eq_some first, c_str_inet_ntoa, reads]
  exact ⟨rfl,Decimal.digits_nonempty _,Decimal.digits_isDigit _,Decimal.value_digits _⟩

theorem ofSockAddr_getSockAddr (a : IpAddressPort) : ofSockAddr a.getSockAddr = a := by
  simp [ofSockAddr, getSockAddr, ntohs_htons]

theorem toString_ofOctets (oct0 oct1 oct2 oct3 : UInt8) (port : UInt16) :
    toString ⟨.ofOctets oct0 oct1 oct2 oct3,port⟩ =
      Decimal.digits oct0.toNat ++ dot :: Decimal.digits oct1.toNat ++
        dot :: Decimal.digits oct2.toNat ++ dot :: Decimal.digits oct3.toNat ++
        colon :: Decimal.digits port.toNat := by
  rw [toString, IpAddress.toString, inet_ntoa, octets_ofOctets, intercalate_octets]

/-- Every address comes back from its text and from its socket address; the text of four
octets and a port is their decimals, and is read as them. -/
theorem address_round_trips (reads : ReadsBack inet_aton) :
    (∀ a : IpAddressPort, parse inet_aton a.toString = some (some a) ∧
      ofSockAddr a.getSockAddr = a) ∧
    ∀ oct0 oct1 oct2 oct3 port,
      toString ⟨.ofOctets oct0 oct1 oct2 oct3,port⟩ =
        Decimal.digits oct0.toNat ++ dot :: Decimal.digits oct1.toNat ++
          dot :: Decimal.digits oct2.toNat ++ dot :: Decimal.digits oct3.toNat ++
          colon :: Decimal.digits port.toNat ∧
      parse inet_aton (Decimal.digits oct0.toNat ++ dot :: Decimal.digits oct1.toNat ++
          dot :: Decimal.digits oct2.toNat ++ dot :: Decimal.digits oct3.toNat ++
          colon :: Decimal.digits port.toNat) =
        some (some ⟨.ofOctets oct0 oct1 oct2 oct3,port⟩) := by
  constructor
  · intro a
    exact ⟨parse_toString reads a,ofSockAddr_getSockAddr a⟩
  · intro oct0 oct1 oct2 oct3 port
    have text := toString_ofOctets oct0 oct1 oct2 oct3 port
    refine ⟨text,?_⟩
    rw [← text]
    exact parse_toString reads _

theorem loopback_round_trips :
    toString ⟨.ofOctets 127 0 0 1,4242⟩ =
      [49, 50, 55, 46, 48, 46, 48, 46, 49, 58, 52, 50, 52, 50] ∧
    parse dottedQuad (toString ⟨.ofOctets 127 0 0 1,4242⟩) =
      some (some ⟨.ofOctets 127 0 0 1,4242⟩) := by
  exact ⟨by decide,((address_round_trips dottedQuad_reads).1 _).1⟩

end IpAddressPort
end Aiopp
