import Sequitur.Runs

namespace Sequitur.Protocol

/-- A packet of the ingress ring. The gateway and the core declare the same
layout; the two padding bytes are left out. -/
structure IngressPacket where
  type : UInt8
  side : UInt8
  instrumentId : UInt32
  traderId : UInt32
  quantity : UInt32
  price : UInt64
  clientOrderId : UInt64
  deriving DecidableEq

def IngressPacket.zero : IngressPacket := ⟨0, 0, 0, 0, 0, 0, 0⟩

section TrimSpace

/-- The number of bytes of the white space character that the bytes start
with, 0 if they start with none. -/
def spaceWidth : List UInt8 → Nat
  | 0xC2 :: 0x85 :: _ | 0xC2 :: 0xA0 :: _ => 2
  | 0xE1 :: 0x9A :: 0x80 :: _ => 3
  | 0xE2 :: 0x80 :: b :: _ => if 0x80 ≤ b ∧ b ≤ 0x8A ∨ b = 0xA8 ∨ b = 0xA9 ∨ b = 0xAF then 3 else 0
  | 0xE2 :: 0x81 :: 0x9F :: _ => 3
  | 0xE3 :: 0x80 :: 0x80 :: _ => 3
  | b :: _ => if b = 0x20 ∨ 0x09 ≤ b ∧ b ≤ 0x0D then 1 else 0
  | [] => 0

def lastSpaceWidth : List UInt8 → Nat
  | a :: b :: c :: _ =>
      if spaceWidth [c, b, a] = 3 then 3
      else if spaceWidth [b, a] = 2 then 2
      else spaceWidth [a]
  | [a, b] => if spaceWidth [b, a] = 2 then 2 else spaceWidth [a]
  | [a] => spaceWidth [a]
  | [] => 0

def trimWith (width : List UInt8 → Nat) : Nat → List UInt8 → List UInt8
  | 0, s => s
  | fuel + 1, s => if width s = 0 then s else trimWith width fuel (s.drop (width s))

/-- `strings.TrimSpace`. -/
def trimSpace (s : List UInt8) : List UInt8 :=
  let s := trimWith spaceWidth s.length s
  (trimWith lastSpaceWidth s.length s.reverse).reverse

end TrimSpace

inductive NumError
  | errSyntax
  | errRange
  deriving DecidableEq

def digits (bitSize : Nat) : Nat → List UInt8 → Except NumError Nat
  | n, [] => .ok n
  | n, c :: s =>
      if 0x30 ≤ c ∧ c ≤ 0x39 then
        if 10 * n + (c - 0x30).toNat < 2 ^ bitSize then digits bitSize (10 * n + (c - 0x30).toNat) s
        else .error .errRange
      else .error .errSyntax

def parseUint (s : List UInt8) (bitSize : Nat) : Except NumError Nat :=
  if s = [] then .error .errSyntax else digits bitSize 0 s

def assignField (packet : IngressPacket) (counter : Nat) (val : List UInt8) : Except NumError IngressPacket :=
  match counter with
  | 0 => (parseUint val 8).map fun parsed => { packet with type := .ofNat parsed }
  | 1 => (parseUint val 8).map fun parsed => { packet with side := .ofNat parsed }
  | 2 => (parseUint val 32).map fun parsed => { packet with instrumentId := .ofNat parsed }
  | 3 => (parseUint val 32).map fun parsed => { packet with traderId := .ofNat parsed }
  | 4 => (parseUint val 32).map fun parsed => { packet with quantity := .ofNat parsed }
  | 5 => (parseUint val 64).map fun parsed => { packet with price := .ofNat parsed }
  | 6 => (parseUint val 64).map fun parsed => { packet with clientOrderId := .ofNat parsed }
  | _ => .ok packet

inductive ParseError
  | field (err : NumError)
  | incomplete (message : String)
  deriving DecidableEq

/-- The slices `line[left:right]` that the loop of `ParseCSV` cuts, in order.
The first argument is what the inner loop has passed since `left`. -/
def slices : List UInt8 → List UInt8 → List (List UInt8)
  | val, [] => [val]
  | val, c :: line =>
      if c = 0x2C then
        -- The outer loop tests `right >= len(line)` before it cuts again.
        match line with
        | [] => [val]
        | _ => val :: slices [] line
      else slices (val ++ [c]) line

/-- The fields are assigned one by one; those assigned before an error stay. -/
def assignFields (packet : IngressPacket) (counter : Nat) :
    List (List UInt8) → IngressPacket × Except NumError Nat
  | [] => (packet, .ok counter)
  | val :: vals =>
      match assignField packet counter val with
      | .error err => (packet, .error err)
      | .ok packet => assignFields packet (counter + 1) vals

def parseCSV (packet : IngressPacket) (line : List UInt8) : IngressPacket × Option ParseError :=
  let line := trimSpace line
  let cut := if line = [] then [] else slices [] line
  match assignFields packet 0 cut with
  | (packet, .error err) => (packet, some (.field err))
  | (packet, .ok counter) =>
      if counter ≠ 7 then
        (packet, some (.incomplete ("incomplete packet: expected 7 fields, got " ++ toString counter)))
      else (packet, none)

def forwarded (line : List UInt8) : Option IngressPacket :=
  match parseCSV .zero line with
  | (packet, none) => some packet
  | (_, some _) => none

end Sequitur.Protocol
