import Aiopp.Foundations.Decimal
import Mathlib.Data.List.TakeWhile

/-!
IPv4 addresses and ports, as text and as the kernel's socket address, on a little-endian
host. A `std::string` is a list of bytes. `inet_aton` is a parameter; it is handed a C
string. A call that asks an empty view for its first or last byte has no result.
-/
namespace Aiopp

structure IpAddress where
  /-- in network byte order -/
  ipv4 : UInt32 := 0
  deriving DecidableEq, Repr

structure IpAddressPort where
  address : IpAddress := {}
  port : UInt16 := 0
  deriving DecidableEq, Repr

structure SockaddrIn where
  sin_family : UInt16 := 0
  sin_port : UInt16 := 0
  sin_addr : UInt32 := 0
  sin_zero : UInt64 := 0
  deriving DecidableEq, Repr

namespace Socket

def dot : UInt8 := 46
def colon : UInt8 := 58

def octets (addr : UInt32) : List UInt8 :=
  [addr.toUInt8, (addr >>> 8).toUInt8, (addr >>> 16).toUInt8, (addr >>> 24).toUInt8]

def inet_ntoa (addr : UInt32) : List UInt8 :=
  [dot].intercalate ((octets addr).map fun octet => Decimal.digits octet.toNat)

def htons (hostshort : UInt16) : UInt16 := hostshort <<< 8 ||| hostshort >>> 8
def ntohs (netshort : UInt16) : UInt16 := netshort <<< 8 ||| netshort >>> 8

def c_str (str : List UInt8) : List UInt8 := str.takeWhile (· ≠ 0)

inductive Errc where
  | none | invalid_argument | result_out_of_range
  deriving DecidableEq, Repr

structure FromCharsResult where
  /-- what is left from `ptr` on -/
  ptr : List UInt8
  ec : Errc := .none
  value : UInt16
  deriving DecidableEq, Repr

/-- `std::from_chars` for `uint16_t`: no sign, no space; the value is written only on success. -/
def from_chars (text : List UInt8) (value : UInt16) : FromCharsResult :=
  let pattern := text.takeWhile Decimal.isDigit
  let ptr := text.dropWhile Decimal.isDigit
  if pattern = [] then { ptr := text, ec := .invalid_argument, value := value }
  else if Decimal.value pattern ≤ 65535 then
    { ptr := ptr, value := UInt16.ofNat (Decimal.value pattern) }
  else { ptr := ptr, ec := .result_out_of_range, value := value }

def AF_INET : UInt16 := 2

end Socket

open Socket

namespace IpAddress

def parse (inet_aton : List UInt8 → Option UInt32) (str : List UInt8) : Option IpAddress :=
  (inet_aton (c_str str)).map IpAddress.mk

/-- The shifts are of int, into its sign bit; the conversion keeps the bits. -/
def ofOctets (oct0 oct1 oct2 oct3 : UInt8) : IpAddress :=
  ⟨oct0.toUInt32 ||| oct1.toUInt32 <<< 8 ||| oct2.toUInt32 <<< 16 ||| oct3.toUInt32 <<< 24⟩

def toString (address : IpAddress) : List UInt8 := inet_ntoa address.ipv4

end IpAddress

namespace Socket

def readOctet (part : List UInt8) : Option UInt8 :=
  if part.isEmpty = false ∧ part.all Decimal.isDigit = true ∧ Decimal.value part ≤ 255 then
    some (UInt8.ofNat (Decimal.value part))
  else none

/-- `inet_aton` on four decimals joined by dots, without its other forms. -/
def dottedQuad (text : List UInt8) : Option UInt32 :=
  match (text.splitOn dot).map readOctet with
  | [some oct0, some oct1, some oct2, some oct3] => some (IpAddress.ofOctets oct0 oct1 oct2 oct3).ipv4
  | _ => none

end Socket

namespace IpAddressPort

def parsePort (ip : IpAddress) (portSv : List UInt8) : Option (Option IpAddressPort) :=
  portSv.head?.bind fun _ => portSv.getLast?.map fun _ =>
    let result := from_chars portSv 0
    if result.ec ≠ .none ∨ result.ptr ≠ [] then none else some ⟨ip, result.value⟩

def parse (inet_aton : List UInt8 → Option UInt32) (str : List UInt8) :
    Option (Option IpAddressPort) :=
  match str.idxOf? colon with
  | none => some none
  | some portDelim =>
    match IpAddress.parse inet_aton (str.take portDelim) with
    | none => some none
    | some ip => parsePort ip (str.drop (portDelim + 1))

def toString (a : IpAddressPort) : List UInt8 :=
  a.address.toString ++ colon :: Decimal.digits a.port.toNat

def getSockAddr (a : IpAddressPort) : SockaddrIn :=
  { sin_family := AF_INET, sin_addr := a.address.ipv4, sin_port := htons a.port }

def ofSockAddr (sa : SockaddrIn) : IpAddressPort := ⟨⟨sa.sin_addr⟩, ntohs sa.sin_port⟩

/-- `ip ':' digits`, the number of a port behind the first colon. -/
def Grammar (inet_aton : List UInt8 → Option UInt32) (str : List UInt8) (a : IpAddressPort) :
    Prop :=
  ∃ ip digits, str = ip ++ colon :: digits ∧ colon ∉ ip ∧
    inet_aton (c_str ip) = some a.address.ipv4 ∧ digits ≠ [] ∧
    (∀ c ∈ digits, Decimal.isDigit c = true) ∧ Decimal.value digits = a.port.toNat

/-- An accepted address before a colon that ends the text. -/
def PortMissing (inet_aton : List UInt8 → Option UInt32) (str : List UInt8) : Prop :=
  ∃ ip, str = ip ++ [colon] ∧ colon ∉ ip ∧ (inet_aton (c_str ip)).isSome

section Parse
variable {inet_aton : List UInt8 → Option UInt32} {ip rest : List UInt8}

theorem find_colon (first : colon ∉ ip) : (ip ++ colon :: rest).idxOf? colon = some ip.length := by
  rw [List.idxOf?_eq_some_iff]
  refine ⟨by simp,by simp,?_⟩
  intro j before here
  rw [List.getElem_append_left before] at here
  exact first (here ▸ List.getElem_mem before)

theorem parse_split (first : colon ∉ ip) : parse inet_aton (ip ++ colon :: rest) =
    ((inet_aton (c_str ip)).map fun ipv4 => parsePort ⟨ipv4⟩ rest).getD (some none) := by
  have port : (ip ++ colon :: rest).drop (ip.length + 1) = rest := by
    rw [List.drop_append]
    simp
  unfold parse
  rw [find_colon first]
  simp only [List.take_left, port, IpAddress.parse]
  cases inet_aton (c_str ip) <;> rfl

theorem parse_without_colon (absent : colon ∉ rest) : parse inet_aton rest = some none := by
  unfold parse
  rw [List.idxOf?_eq_none_iff.mpr absent]

theorem from_chars_digits {text : List UInt8} (value : UInt16)
    (digits : ∀ c ∈ text, Decimal.isDigit c = true) : from_chars text value =
      if text = [] then { ptr := text, ec := .invalid_argument, value := value }
      else if Decimal.value text ≤ 65535 then
        { ptr := [], value := UInt16.ofNat (Decimal.value text) }
      else { ptr := [], ec := .result_out_of_range, value := value } := by
  have whole : text.takeWhile Decimal.isDigit = text := List.takeWhile_eq_self_iff.mpr digits
  have ended : text.dropWhile Decimal.isDigit = [] := List.dropWhile_eq_nil_iff.mpr digits
  unfold from_chars
  rw [whole, ended]

theorem from_chars_ended {text : List UInt8} {value : UInt16}
    (success : (from_chars text value).ec = .none) (ended : (from_chars text value).ptr = []) :
    ∀ c ∈ text, Decimal.isDigit c = true := by
  apply List.dropWhile_eq_nil_iff.mp
  unfold from_chars at success ended
  dsimp only at success ended
  split at success
  · simp at success
  · rename_i pattern
    rw [if_neg pattern] at ended
    split at ended
    · exact ended
    · exact ended

theorem parsePort_nonempty {ip : IpAddress} {text : List UInt8} (nonempty : text ≠ []) :
    parsePort ip text = some (if (from_chars text 0).ec ≠ .none ∨ (from_chars text 0).ptr ≠ []
      then none else some ⟨ip, (from_chars text 0).value⟩) := by
  cases text with
  | nil => exact absurd rfl nonempty
  | cons c text => simp [parsePort, List.getLast?_cons]

theorem parsePort_eq_some {ip : IpAddress} {text : List UInt8} {a : IpAddressPort} :
    parsePort ip text = some (some a) ↔ a.address = ip ∧ text ≠ [] ∧
      (∀ c ∈ text, Decimal.isDigit c = true) ∧ Decimal.value text = a.port.toNat := by
  by_cases empty : text = []
  · simp [empty, parsePort]
  rw [parsePort_nonempty empty]
  constructor
  · intro read
    split at read
    · simp at read
    · rename_i passed
      obtain ⟨success,ended⟩ := not_or.mp passed
      have digits := from_chars_ended (not_not.mp success) (not_not.mp ended)
      rw [from_chars_digits 0 digits, if_neg empty] at read success
      split at read
      · rename_i small
        cases read
        exact ⟨rfl,empty,digits,(UInt16.toNat_ofNat_of_lt' (by change _ < 65536; omega)).symm⟩
      · rename_i large
        simp [large] at success
  · intro written
    obtain ⟨rfl,_,digits,value⟩ := written
    have small : Decimal.value text ≤ 65535 := by
      have bound := a.port.toNat_lt
      omega
    rw [from_chars_digits 0 digits, if_neg empty, if_pos small]
    simp [value]

theorem parsePort_defined {ip : IpAddress} {text : List UInt8} :
    (parsePort ip text).isSome ↔ text ≠ [] := by
  cases text with
  | nil => simp [parsePort]
  | cons c text => simp [parsePort, List.getLast?_cons]

theorem parse_eq_some (first : colon ∉ ip) {a : IpAddressPort} :
    parse inet_aton (ip ++ colon :: rest) = some (some a) ↔
      inet_aton (c_str ip) = some a.address.ipv4 ∧ rest ≠ [] ∧
      (∀ c ∈ rest, Decimal.isDigit c = true) ∧ Decimal.value rest = a.port.toNat := by
  rw [parse_split first]
  cases accepted : inet_aton (c_str ip) with
  | none => simp
  | some ipv4 =>
    simp only [Option.map_some, Option.getD_some, parsePort_eq_some, Option.some.injEq]
    have same : a.address = ⟨ipv4⟩ ↔ ipv4 = a.address.ipv4 := by
      constructor
      · intro eq
        rw [eq]
      · intro eq
        rw [eq]
    rw [same]

theorem colon_splits {str : List UInt8} (found : colon ∈ str) :
    ∃ ip rest, str = ip ++ colon :: rest ∧ colon ∉ ip := List.eq_append_cons_of_mem found

theorem colon_splits_once {ip' rest' : List UInt8} (first : colon ∉ ip) (first' : colon ∉ ip')
    (same : ip ++ colon :: rest = ip' ++ colon :: rest') : ip = ip' ∧ rest = rest' := by
  have lengths : ip'.length = ip.length := by
    rw [← Option.some.injEq, ← find_colon first', ← same]
    exact find_colon first
  obtain ⟨fronts,backs⟩ := List.append_inj same lengths.symm
  exact ⟨fronts,(List.cons.inj backs).2⟩

theorem grammar_iff (first : colon ∉ ip) {a : IpAddressPort} :
    Grammar inet_aton (ip ++ colon :: rest) a ↔
      parse inet_aton (ip ++ colon :: rest) = some (some a) := by
  rw [parse_eq_some first]
  constructor
  · rintro ⟨ip',rest',split,first',written⟩
    obtain ⟨rfl,rfl⟩ := colon_splits_once first first' split
    exact written
  · intro written
    exact ⟨ip,rest,rfl,first,written⟩

/-- The parser accepts its grammar and nothing else. It looks at the ends of an empty view
exactly when an accepted address is followed by a colon and the end of the text. -/
theorem parse_grammar_iff (inet_aton : List UInt8 → Option UInt32) (str : List UInt8) :
    ((parse inet_aton str).isSome ∧
      ∀ a, parse inet_aton str = some (some a) ↔ Grammar inet_aton str a) ↔
    ¬ PortMissing inet_aton str := by
  by_cases found : colon ∈ str
  · obtain ⟨ip,rest,rfl,first⟩ := colon_splits found
    have accepts : ∀ a, parse inet_aton (ip ++ colon :: rest) = some (some a) ↔
        Grammar inet_aton (ip ++ colon :: rest) a := fun a => (grammar_iff first).symm
    have missing : PortMissing inet_aton (ip ++ colon :: rest) ↔
        rest = [] ∧ (inet_aton (c_str ip)).isSome := by
      constructor
      · rintro ⟨ip',split,first',accepted⟩
        obtain ⟨rfl,rfl⟩ := colon_splits_once first first' split
        exact ⟨rfl,accepted⟩
      · rintro ⟨rfl,accepted⟩
        exact ⟨ip,rfl,first,accepted⟩
    have safe : (parse inet_aton (ip ++ colon :: rest)).isSome ↔
        ¬ (rest = [] ∧ (inet_aton (c_str ip)).isSome) := by
      rw [parse_split first]
      cases inet_aton (c_str ip) with
      | none => simp
      | some ipv4 => simp [parsePort_defined]
    rw [missing, ← safe]
    exact and_iff_left accepts
  · have rejected : parse inet_aton str = some none := parse_without_colon found
    have no_grammar : ∀ a, ¬ Grammar inet_aton str a := by
      rintro a ⟨ip,digits,rfl,_⟩
      simp at found
    have no_port : ¬ PortMissing inet_aton str := by
      rintro ⟨ip,rfl,_⟩
      simp at found
    simp [rejected, no_grammar, no_port]

end Parse

/-- 127.0.0.1: with nothing behind the colon -/
theorem empty_port_view :
    ¬ ∀ (inet_aton : List UInt8 → Option UInt32) (str : List UInt8),
      (parse inet_aton str).isSome ∧
        ∀ a, parse inet_aton str = some (some a) ↔ Grammar inet_aton str a := by
  intro claim
  have defined := (claim dottedQuad [49, 50, 55, 46, 48, 46, 48, 46, 49, 58]).1
  have undefined_view : parse dottedQuad [49, 50, 55, 46, 48, 46, 48, 46, 49, 58] = none := by
    decide +kernel
  simp [undefined_view] at defined

end IpAddressPort
end Aiopp
