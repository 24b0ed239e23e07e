namespace MaxEnt.BigEndian

def toNat (bytes : List UInt8) : Nat := bytes.foldl (fun n b => 256 * n + b.toNat) 0

def ofNat (count n : Nat) : List UInt8 :=
  (List.range count).reverse.map fun i => .ofNat (n / Nat.pow 256 i % 256)

end MaxEnt.BigEndian
