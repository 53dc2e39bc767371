import Mathlib.Data.List.Basic

/-!
# Signing the hash of a tagged hash

Messages of several kinds are signed with one key. What is signed is a hash of 32 bytes: that
of the tag of the kind of message followed by the hash of its encoding. If the tag and the
encoding tell messages apart, then two messages have the same hash only if the hash function
has a collision, and one that can be read off the two messages. So whoever signs messages is not
taken to have signed another one, of the same kind or a different one, unless somebody has come
by a collision.
-/

namespace TaggedHash

/-- A hash function. -/
abbrev Hash : Type := List UInt8 → Vector UInt8 32

/-- Messages, and what is known of them by their tags and encodings. -/
structure Messages (μ : Type) (n : ℕ) where
  tag : μ → Vector UInt8 n
  encode : μ → List UInt8
  encode_inj : ∀ {m m'}, tag m = tag m' → encode m = encode m' → m = m'

variable {μ : Type} {n : ℕ} (M : Messages μ n) (start : List UInt8) (hash : Hash)

/-- What the hash that is signed is the hash of. -/
def Messages.preimage (m : μ) : List UInt8 :=
  start ++ (M.tag m).toList ++ (hash (M.encode m)).toList

/-- The hash that is signed. -/
def Messages.signHash (m : μ) : Vector UInt8 32 := hash (M.preimage start hash m)

/-- Everything that is hashed on the way. -/
def Messages.hashed (m : μ) : List (List UInt8) := [M.encode m, M.preimage start hash m]

/-- Something of the one and something else of the other has the same hash. -/
def Collides (l l' : List (List UInt8)) : Prop :=
  ∃ x ∈ l, ∃ y ∈ l', x ≠ y ∧ hash x = hash y

instance (l l' : List (List UInt8)) : Decidable (Collides hash l l') :=
  inferInstanceAs (Decidable (∃ x ∈ l, ∃ y ∈ l', x ≠ y ∧ hash x = hash y))

variable {M start hash}

theorem Messages.preimage_inj {m m' : μ}
    (h : M.preimage start hash m = M.preimage start hash m') :
    M.tag m = M.tag m' ∧ hash (M.encode m) = hash (M.encode m') := by
  have hlen : (start ++ (M.tag m).toList).length = (start ++ (M.tag m').toList).length := by
    simp
  obtain ⟨htag, hhash⟩ := List.append_inj h hlen
  exact ⟨Vector.toList_inj.mp (List.append_cancel_left htag), Vector.toList_inj.mp hhash⟩

/-- Two messages of one hash are the same, or else here is a collision. -/
theorem Messages.signHash_inj {m m' : μ}
    (h : M.signHash start hash m = M.signHash start hash m') :
    m = m' ∨ Collides hash (M.hashed start hash m) (M.hashed start hash m') := by
  by_cases hpre : M.preimage start hash m = M.preimage start hash m'
  · obtain ⟨htag, hhash⟩ := M.preimage_inj hpre
    by_cases hencode : M.encode m = M.encode m'
    · exact .inl (M.encode_inj htag hencode)
    · exact .inr ⟨_, List.mem_cons_self, _, List.mem_cons_self, hencode, hhash⟩
  · exact .inr ⟨_, List.mem_cons_of_mem _ List.mem_cons_self, _,
      List.mem_cons_of_mem _ List.mem_cons_self, hpre, h⟩

/-- These bytes were signed by one who signs such messages. -/
def Made (M : Messages μ n) (start : List UInt8) (hash : Hash) (Signs : μ → Prop)
    (h : Vector UInt8 32) : Prop :=
  ∃ m, Signs m ∧ h = M.signHash start hash m

/-- Then the message that they are checked for was signed, or else here is a collision. -/
theorem Made.signed {Signs : μ → Prop} {m : μ}
    (h : Made M start hash Signs (M.signHash start hash m)) :
    Signs m ∨
      ∃ m', Signs m' ∧ Collides hash (M.hashed start hash m) (M.hashed start hash m') := by
  obtain ⟨m', hm', heq⟩ := h
  rcases M.signHash_inj heq with rfl | hcollides
  · exact .inl hm'
  · exact .inr ⟨m', hm', hcollides⟩

end TaggedHash
