import IoxCore.Lib.Except
import IoxCore.LineProtocol.Parser

/-!
# data_types: namespace names

A model of `NamespaceName` (src/data_types/src/namespace_name.rs): `NamespaceName::new`, which
accepts a name of 1 to 64 UTF-8 bytes whose characters are all alphanumeric or one of `/`, `_`
and `-`, and `NamespaceName::from_org_and_bucket`, which maps an InfluxDB 2 org and bucket to
the name `{org}_{bucket}`.

## The model

A name is its list of characters; its length is counted in UTF-8 bytes, as `str::len` counts
it. `char::is_alphanumeric` is the ASCII letters and digits, and beyond ASCII the Unicode
classes `Alphabetic` and `Numeric`, whose tables are the parameter `unicodeAlphanumeric`. A
`NamespaceName` carries the two checks of `new` as fields, so every value, whichever function
built it, is a valid name. The `Display` texts of the errors are not modelled.

## What is proved

`new_eq_ok_iff`: `new` accepts exactly the valid names and keeps them as they are; a rejected
name is reported with its first bad character (`new_eq_badChars`). The mapping is not
unambiguous, as its doc says it is: it encodes nothing, as the repository's tests expect, and
`_` is both its separator and an allowed character, so moving a `_` across the separator gives
the same name (`fromOrgAndBucket_split_anywhere`). `fromOrgAndBucket_plain_join` says exactly
when it tells pairs apart: when neither org has a `_` after its first character.
-/

namespace IoxCore.DataTypes

open IoxCore.LineProtocol (utf8Len)

section

variable (unicodeAlphanumeric : Char → Bool)

/-- `char::is_alphanumeric`. -/
def isAlphanumeric (c : Char) : Bool :=
  if c.toNat < 128 then c.isAlphanum else unicodeAlphanumeric c

/-- `is_allowed`: the characters of a namespace name. -/
def isAllowed (c : Char) : Bool :=
  isAlphanumeric unicodeAlphanumeric c || c == '/' || c == '_' || c == '-'

/-- `LENGTH_CONSTRAINT`, the closed range `1..=64` of a name's length in bytes. -/
def lengthConstraint : ℕ × ℕ := (1, 64)

/-- Whether a name's length lies in `LENGTH_CONSTRAINT`. -/
def InLengthConstraint (name : List Char) : Prop :=
  lengthConstraint.1 ≤ utf8Len name ∧ utf8Len name ≤ lengthConstraint.2

instance (name : List Char) : Decidable (InLengthConstraint name) :=
  inferInstanceAs (Decidable (_ ∧ _))

/-- `NamespaceNameError`. -/
inductive NamespaceNameError where
  | lengthConstraint (name : List Char)
  | badChars (badCharOffset : ℕ) (name : List Char)
  deriving DecidableEq, Repr

/-- `OrgBucketMappingError`. -/
inductive OrgBucketMappingError where
  | invalidNamespaceName (e : NamespaceNameError)
  | noOrgBucketSpecified
  deriving DecidableEq, Repr

/-- `NamespaceName`: a name that passed the checks of `NamespaceName::new`. -/
structure NamespaceName where
  name : List Char
  length : InLengthConstraint name
  allowed : ∀ c ∈ name, isAllowed unicodeAlphanumeric c = true

namespace NamespaceName

/-- `NamespaceName::new`: the length first, then the position of the first character that is
not allowed. -/
def new (name : List Char) : Except NamespaceNameError (NamespaceName unicodeAlphanumeric) :=
  if hlen : InLengthConstraint name then
    match hbad : name.findIdx? (fun c => !isAllowed unicodeAlphanumeric c) with
    | some badCharOffset => .error (.badChars badCharOffset name)
    | none => .ok ⟨name, hlen, fun c hc => by simpa using List.findIdx?_eq_none_iff.1 hbad c hc⟩
  else .error (.lengthConstraint name)

/-- `NamespaceName::from_org_and_bucket`: both parts non-empty, then `new` of
`format!("{}_{}", org, bucket)`. -/
def fromOrgAndBucket (org bucket : List Char) :
    Except OrgBucketMappingError (NamespaceName unicodeAlphanumeric) :=
  if org.isEmpty || bucket.isEmpty then .error .noOrgBucketSpecified
  else (new unicodeAlphanumeric (org ++ '_' :: bucket)).mapError .invalidNamespaceName

end NamespaceName

end

/-! ## What `new` accepts, and what the mapping confuses -/

namespace NamespaceName

variable {unicodeAlphanumeric : Char → Bool}

/-- `new` accepts exactly the names of allowed characters within the length constraint, and
keeps the name as it is. -/
theorem new_eq_ok_iff {name : List Char} :
    (∃ n, new unicodeAlphanumeric name = .ok n ∧ n.name = name) ↔
      InLengthConstraint name ∧ ∀ c ∈ name, isAllowed unicodeAlphanumeric c = true := by
  constructor
  · rintro ⟨n, -, rfl⟩
    exact ⟨n.length, n.allowed⟩
  · rintro ⟨hlen, hall⟩
    have hnone : name.findIdx? (fun c => !isAllowed unicodeAlphanumeric c) = none :=
      List.findIdx?_eq_none_iff.2 fun c hc => by simp [hall c hc]
    refine ⟨⟨name, hlen, hall⟩, ?_, rfl⟩
    unfold new
    rw [dif_pos hlen]
    split
    · simp_all
    · rfl

/-- A name within the length constraint is rejected with the offset of its first character
that is not allowed. -/
theorem new_eq_badChars {name : List Char} {i : ℕ} (hlen : InLengthConstraint name)
    (hbad : name.findIdx? (fun c => !isAllowed unicodeAlphanumeric c) = some i) :
    new unicodeAlphanumeric name = .error (.badChars i name) := by
  unfold new
  rw [dif_pos hlen]
  split
  · simp_all
  · simp_all

/-- What `from_org_and_bucket` maps a pair to: the name `new` makes of `{org}_{bucket}`. -/
theorem fromOrgAndBucket_eq {org bucket : List Char} (horg : org ≠ []) (hbucket : bucket ≠ []) :
    fromOrgAndBucket unicodeAlphanumeric org bucket =
      (new unicodeAlphanumeric (org ++ '_' :: bucket)).mapError .invalidNamespaceName := by
  simp [fromOrgAndBucket, List.isEmpty_iff, horg, hbucket]

/-- Moving a `_` from the end of the bucket's side to the org's, or back, does not change the
result: the mapping identifies `(o ++ "_" ++ m, b)` with `(o, m ++ "_" ++ b)` for every split. -/
theorem fromOrgAndBucket_split_anywhere {o m b : List Char} (ho : o ≠ []) (hb : b ≠ []) :
    fromOrgAndBucket unicodeAlphanumeric (o ++ '_' :: m) b =
      fromOrgAndBucket unicodeAlphanumeric o (m ++ '_' :: b) := by
  rw [fromOrgAndBucket_eq (by simp) hb, fromOrgAndBucket_eq ho (by simp)]
  simp

/-- An `Ok` mapping comes from two non-empty parts, and its name is their plain join. -/
theorem name_of_fromOrgAndBucket {org bucket : List Char} {n : NamespaceName unicodeAlphanumeric}
    (h : fromOrgAndBucket unicodeAlphanumeric org bucket = .ok n) :
    org ≠ [] ∧ bucket ≠ [] ∧ n.name = org ++ '_' :: bucket := by
  by_cases hempty : org = [] ∨ bucket = []
  · rcases hempty with rfl | rfl <;> simp [fromOrgAndBucket] at h
  · obtain ⟨horg, hbucket⟩ := not_or.1 hempty
    rw [fromOrgAndBucket_eq horg hbucket] at h
    refine ⟨horg, hbucket, ?_⟩
    unfold new at h
    split_ifs at h
    · split at h
      · cases h
      · cases h
        rfl
    · cases h

/-- A separator that neither prefix holds splits a list in one place. -/
theorem append_cons_inj_of_not_mem {α : Type} {x : α} :
    ∀ {t₁ t₂ b₁ b₂ : List α}, x ∉ t₁ → x ∉ t₂ → t₁ ++ x :: b₁ = t₂ ++ x :: b₂ → t₁ = t₂ ∧ b₁ = b₂
  | [], [], _, _, _, _, h => ⟨rfl, by simpa using h⟩
  | [], _ :: _, _, _, _, h₂, h => absurd (List.mem_cons.2 (.inl (List.cons.inj h).1)) h₂
  | _ :: _, [], _, _, h₁, _, h => absurd (List.mem_cons.2 (.inl (List.cons.inj h).1.symm)) h₁
  | a :: t₁, a' :: t₂, _, _, h₁, h₂, h => by
    obtain ⟨rfl, hrest⟩ := List.cons.inj h
    obtain ⟨rfl, rfl⟩ := append_cons_inj_of_not_mem (List.not_mem_of_not_mem_cons h₁)
      (List.not_mem_of_not_mem_cons h₂) hrest
    exact ⟨rfl, rfl⟩

/-- `from_org_and_bucket` joins the org and the bucket with a `_` and encodes nothing, as the
repository's tests expect: every `Ok` result is the valid name `{org}_{bucket}`; two pairs whose
orgs have no `_` after their first character map to one name only when they are equal; and an
org with a `_` after its first character shares each result with another pair. -/
theorem fromOrgAndBucket_plain_join :
    (∀ o b n, fromOrgAndBucket unicodeAlphanumeric o b = .ok n → n.name = o ++ '_' :: b ∧
      InLengthConstraint n.name ∧ ∀ c ∈ n.name, isAllowed unicodeAlphanumeric c = true) ∧
    (∀ o₁ b₁ o₂ b₂ n, fromOrgAndBucket unicodeAlphanumeric o₁ b₁ = .ok n →
      fromOrgAndBucket unicodeAlphanumeric o₂ b₂ = .ok n → '_' ∉ o₁.tail → '_' ∉ o₂.tail →
        o₁ = o₂ ∧ b₁ = b₂) ∧
    (∀ c p s b, b ≠ [] → fromOrgAndBucket unicodeAlphanumeric (c :: p ++ '_' :: s) b =
      fromOrgAndBucket unicodeAlphanumeric (c :: p) (s ++ '_' :: b) ∧
        (c :: p ++ '_' :: s, b) ≠ (c :: p, s ++ '_' :: b)) := by
  refine ⟨fun o b n h => ⟨(name_of_fromOrgAndBucket h).2.2, n.length, n.allowed⟩,
    fun o₁ b₁ o₂ b₂ n h₁ h₂ ht₁ ht₂ => ?_,
    fun c p s b hb => ⟨fromOrgAndBucket_split_anywhere (by simp) hb, by simp⟩⟩
  obtain ⟨ho₁, -, hn₁⟩ := name_of_fromOrgAndBucket h₁
  obtain ⟨ho₂, -, hn₂⟩ := name_of_fromOrgAndBucket h₂
  -- the orgs start alike, and the first `_` after that is the separator
  obtain ⟨c₁, t₁, rfl⟩ := List.exists_cons_of_ne_nil ho₁
  obtain ⟨c₂, t₂, rfl⟩ := List.exists_cons_of_ne_nil ho₂
  obtain ⟨rfl, hjoin⟩ := List.cons.inj (hn₁.symm.trans hn₂)
  obtain ⟨rfl, rfl⟩ := append_cons_inj_of_not_mem ht₁ ht₂ hjoin
  exact ⟨rfl, rfl⟩

/-- The org `a_b` with the bucket `c`, and the org `a` with the bucket `b_c`, are both mapped
to the namespace `a_b_c`. -/
theorem fromOrgAndBucket_a_b_c :
    ∃ n : NamespaceName (fun _ => false),
      fromOrgAndBucket (fun _ => false) ['a', '_', 'b'] ['c'] = .ok n ∧
        fromOrgAndBucket (fun _ => false) ['a'] ['b', '_', 'c'] = .ok n ∧
        n.name = ['a', '_', 'b', '_', 'c'] ∧
        (['a', '_', 'b'], ['c']) ≠ (['a'], ['b', '_', 'c']) := by
  have hsplit : fromOrgAndBucket (fun _ => false) ['a', '_', 'b'] ['c'] =
      fromOrgAndBucket (fun _ => false) ['a'] ['b', '_', 'c'] :=
    fromOrgAndBucket_split_anywhere (o := ['a']) (m := ['b']) (b := ['c']) (by simp) (by simp)
  obtain ⟨n, hn, hname⟩ := (@new_eq_ok_iff (fun _ => false) ['a', '_', 'b', '_', 'c']).2
    ⟨by decide, by simp [isAllowed, isAlphanumeric]⟩
  have hok : fromOrgAndBucket (fun _ => false) ['a', '_', 'b'] ['c'] = .ok n := by
    rw [fromOrgAndBucket_eq (by simp) (by simp)]
    simp [hn]
  exact ⟨n, hok, hsplit ▸ hok, hname, by decide⟩

end NamespaceName

end IoxCore.DataTypes
