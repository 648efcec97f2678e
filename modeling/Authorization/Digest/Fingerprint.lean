import Authorization.Digest.Sha256

/-!
# Fingerprints

Names of generated statements have to be short and stable, so they carry a
fingerprint in place of the text they stand for: the first four bytes of its
SHA-256 digest, in hexadecimal.
-/

namespace Authorization

/-- The eight hexadecimal digits of a word. -/
def hexWord (w : UInt32) : List Char :=
  [28, 24, 20, 16, 12, 8, 4, 0].map fun shift => Nat.digitChar (w.toNat / Nat.pow 2 shift % 16)

/-- The first four bytes of the digest of a text, in hexadecimal. -/
def fingerprint (s : String) : String :=
  String.ofList (hexWord (Sha256.digest s.toUTF8.toList).a)

/-- A fingerprint has eight digits. -/
theorem length_fingerprint (s : String) : (fingerprint s).length = 8 := by
  simp [fingerprint, hexWord]

/-- All of them are hexadecimal digits, in small letters. -/
theorem mem_of_mem_fingerprint {s : String} {d : Char} (h : d ∈ (fingerprint s).toList) :
    d ∈ "0123456789abcdef".toList := by
  have hdigit : ∀ n < 16, Nat.digitChar n ∈ "0123456789abcdef".toList := by decide
  rw [fingerprint, String.toList_ofList, hexWord] at h
  obtain ⟨shift, _, rfl⟩ := List.mem_map.1 h
  exact hdigit _ (Nat.mod_lt _ (by decide))

end Authorization
