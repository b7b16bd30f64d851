import Mathlib.Data.List.Basic

/-!
# Endpoints

IPv4 addresses and endpoints as `butil` writes and reads them.  The extended endpoints (unix
sockets and IPv6), which hide behind a special port, are left out.
-/

namespace McBrpc

open List Nat String

/-- The four bytes of an `ip_t`, in network order. -/
structure Ip where
  first : UInt8
  second : UInt8
  third : UInt8
  fourth : UInt8
  deriving DecidableEq, Repr

structure EndPoint where
  ip : Ip
  port : Int
  deriving DecidableEq, Repr

def octetDigits (byte : UInt8) : List Char :=
  toDigits 10 byte.toNat

/-- A number of up to three digits, without leading zeros, of at most 255. -/
def octet? (digits : List Char) : Option UInt8 :=
  if digits ≠ [] ∧ digits.all Char.isDigit ∧ (digits.head? = some '0' → digits = ['0']) ∧
      ofDigitChars 10 digits 0 ≤ 255 then
    some (UInt8.ofNat (ofDigitChars 10 digits 0))
  else none

def inetNtop (ip : Ip) : String :=
  ofList (['.'].intercalate
    [octetDigits ip.first, octetDigits ip.second, octetDigits ip.third, octetDigits ip.fourth])

def inetPton (text : String) : Option Ip :=
  match (text.toList.splitOn '.').map octet? with
  | [some first, some second, some third, some fourth] => some ⟨first, second, third, fourth⟩
  | _ => none

/-- The characters skipped by `isspace`. -/
def isSpace (char : Char) : Bool :=
  char ∈ [' ', '\t', '\n', '\x0b', '\x0c', '\r']

def str2ip (ipStr : String) : Option Ip :=
  inetPton (ofList (ipStr.toList.dropWhile isSpace))

def ip2str (ip : Ip) : String := inetNtop ip

def endpoint2str (point : EndPoint) : String :=
  inetNtop point.ip ++ ":" ++ toString point.port

variable {char : Char} {ip : Ip}

theorem isDigit_of_mem_octetDigits {byte : UInt8} (mem : char ∈ octetDigits byte)
    : char.isDigit :=
  isDigit_of_mem_toDigits (by decide) (by decide) mem

theorem eq_zero_of_head?_toDigits {n : Nat} (zero : (toDigits 10 n).head? = some '0') : n = 0 := by
  induction n using Nat.strongRecOn with
  | _ n ih =>
    by_cases small : n < 10
    · have digit : ∀ digit < 10, digitChar digit = '0' → digit = 0 := by decide
      rw [toDigits_of_lt_base small] at zero
      exact digit n small (Option.some.inj zero)
    · rw [Nat.toDigits_of_base_le (by decide) (Nat.le_of_not_lt small),
        head?_append_of_ne_nil _ Nat.toDigits_ne_nil] at zero
      have quotient := ih (n / 10) (by omega) zero
      omega

theorem octet?_octetDigits (byte : UInt8) : octet? (octetDigits byte) = some byte := by
  have value : ofDigitChars 10 (octetDigits byte) 0 = byte.toNat :=
    ofDigitChars_ten_toDigits
  have small := byte.toNat_lt
  rw [octet?, value, if_pos, UInt8.ofNat_toNat]
  refine ⟨Nat.toDigits_ne_nil,
    all_eq_true.mpr fun digit digit_mem => isDigit_of_mem_octetDigits digit_mem, ?_, by omega⟩
  intro leading
  have zero : byte.toNat = 0 := eq_zero_of_head?_toDigits leading
  rw [octetDigits, zero]
  rfl

theorem toList_inetNtop (ip : Ip) : (inetNtop ip).toList = ['.'].intercalate
      [octetDigits ip.first, octetDigits ip.second, octetDigits ip.third, octetDigits ip.fourth] :=
  toList_ofList

theorem mem_inetNtop (mem : char ∈ (inetNtop ip).toList) : char.isDigit ∨ char = '.' := by
  rw [toList_inetNtop] at mem
  simp only [List.intercalate, List.intersperse, flatten_cons, flatten_nil,
    mem_append, mem_singleton, not_mem_nil, or_false] at mem
  rcases mem with digit | dot | digit | dot | digit | dot | digit
  all_goals first
    | exact .inl (isDigit_of_mem_octetDigits digit)
    | exact .inr dot

@[simp]
theorem inetPton_inetNtop (ip : Ip) : inetPton (inetNtop ip) = some ip := by
  have undotted : ∀ digits ∈ [octetDigits ip.first, octetDigits ip.second, octetDigits ip.third,
      octetDigits ip.fourth], '.' ∉ digits := by
    intro digits mem dot_mem
    simp only [mem_cons, not_mem_nil, or_false] at mem
    have digit : '.'.isDigit := by
      rcases mem with rfl | rfl | rfl | rfl
      all_goals exact isDigit_of_mem_octetDigits dot_mem
    exact absurd digit (by decide)
  rw [inetPton, toList_inetNtop, splitOn_intercalate '.' undotted (by simp)]
  simp [octet?_octetDigits]

theorem not_isSpace_of_mem_inetNtop (mem : char ∈ (inetNtop ip).toList) : ¬ isSpace char := by
  intro space
  have written := mem_inetNtop mem
  simp only [isSpace, mem_cons, not_mem_nil, or_false, decide_eq_true_eq] at space
  rcases space with rfl | rfl | rfl | rfl | rfl | rfl
  all_goals exact absurd written (by decide)

@[simp]
theorem str2ip_ip2str (ip : Ip) : str2ip (ip2str ip) = some ip := by
  have unspaced : (inetNtop ip).toList.dropWhile isSpace = (inetNtop ip).toList := by
    cases text_eq : (inetNtop ip).toList with
    | nil => rfl
    | cons char chars =>
      apply dropWhile_cons_of_neg
      apply not_isSpace_of_mem_inetNtop
      rw [text_eq]
      exact mem_cons_self
  rw [str2ip, ip2str, unspaced, ofList_toList, inetPton_inetNtop]

theorem inetNtop_injective {ip' : Ip} (same : inetNtop ip = inetNtop ip') : ip = ip' := by
  have read := inetPton_inetNtop ip
  rw [same, inetPton_inetNtop] at read
  exact (Option.some.inj read).symm

theorem toList_endpoint2str (ip : Ip) (port : Nat) :
    (endpoint2str ⟨ip, port⟩).toList = (inetNtop ip).toList ++ ':' :: toDigits 10 port := by
  have digits : (toString (port : Int)).toList = toDigits 10 port := toList_repr
  rw [endpoint2str, toList_append, toList_append, digits]
  simp

theorem colon_not_mem_inetNtop (ip : Ip) : ':' ∉ (inetNtop ip).toList := by
  intro colon_mem
  exact absurd (mem_inetNtop colon_mem) (by decide)

theorem colon_not_mem_toDigits (n : Nat) : ':' ∉ toDigits 10 n := by
  intro colon_mem
  have digit : ':'.isDigit := isDigit_of_mem_toDigits (by decide) (by decide) colon_mem
  exact absurd digit (by decide)

theorem endpoint2str_injective {ip' : Ip} {port port' : Nat}
    (same : endpoint2str ⟨ip, port⟩ = endpoint2str ⟨ip', port'⟩) : ip = ip' ∧ port = port' := by
  have texts := congrArg toList same
  rw [toList_endpoint2str, toList_endpoint2str,
    append_cons_inj_of_notMem (colon_not_mem_inetNtop ip) (colon_not_mem_toDigits port)]
    at texts
  obtain ⟨ips, -, ports⟩ := texts
  constructor
  · exact inetNtop_injective (toList_inj.mp ips)
  · rw [← @ofDigitChars_ten_toDigits port, ports, ofDigitChars_ten_toDigits]

end McBrpc
