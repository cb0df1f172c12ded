import IndexedTable.Plan.Cache
import IndexedTable.Proofs.KeyOrder

/-! The byte sequence of a predicate tells it apart from every other one. Read from the front, each
part of a sequence says where it ends: a tag because no tag begins another one, a number because its
width is fixed, a name, a binary value or a list because its length comes first. So two sequences
agree exactly where the predicates and the directions do, and no sequence begins another one. Two
predicates that are not the same can still share a fingerprint, but only if the hash takes two
different sequences to one number. -/

namespace IndexedTable

theorem littleEndian_append_inj {width m n : Nat} (hm : m < 256 ^ width) (hn : n < 256 ^ width)
    {s t : List UInt8} (h : littleEndian width m ++ s = littleEndian width n ++ t) :
    m = n ∧ s = t := by
  induction width generalizing m n with
  | zero => exact ⟨by omega, h⟩
  | succ width ih =>
      obtain ⟨hByte, hRest⟩ := List.cons.inj h
      have hLow : m % 256 = n % 256 := by simpa using congrArg UInt8.toNat hByte
      rw [Nat.pow_succ] at hm hn
      obtain ⟨hHigh, hEnd⟩ := ih (by omega) (by omega) hRest
      exact ⟨by omega, hEnd⟩

theorem littleEndian_toNat_append_inj {m n : UInt64} {s t : List UInt8}
    (h : littleEndian 8 m.toNat ++ s = littleEndian 8 n.toNat ++ t) : m = n ∧ s = t := by
  obtain ⟨hNumber, hEnd⟩ := littleEndian_append_inj m.toNat_lt n.toNat_lt h
  exact ⟨UInt64.toNat_inj.mp hNumber, hEnd⟩

theorem lengthPrefixed_append_inj {a b s t : List UInt8} (ha : a.length < 2 ^ 64)
    (hb : b.length < 2 ^ 64) (h : lengthPrefixed a ++ s = lengthPrefixed b ++ t) :
    a = b ∧ s = t := by
  simp only [lengthPrefixed, List.append_assoc] at h
  obtain ⟨hLength, hRest⟩ := littleEndian_append_inj ha hb h
  exact List.append_inj hRest hLength

theorem encodeText_append_inj {a b : String} {s t : List UInt8}
    (ha : (Value.utf8 a).length < 2 ^ 64) (hb : (Value.utf8 b).length < 2 ^ 64)
    (h : encodeText a ++ s = encodeText b ++ t) : a = b ∧ s = t := by
  obtain ⟨hBytes, hEnd⟩ := lengthPrefixed_append_inj ha hb h
  exact ⟨Value.utf8_inj.mp hBytes, hEnd⟩

/-- Words none of which begins another one. -/
def PrefixFree (words : List String) : Prop :=
  ∀ x ∈ words, ∀ y ∈ words, Value.utf8 x <+: Value.utf8 y → x = y

instance (words : List String) : Decidable (PrefixFree words) :=
  inferInstanceAs (Decidable (∀ x ∈ words, ∀ y ∈ words, _))

theorem PrefixFree.append_inj {words : List String} (hFree : PrefixFree words) {x y : String}
    (hx : x ∈ words) (hy : y ∈ words) {s t : List UInt8}
    (h : Value.utf8 x ++ s = Value.utf8 y ++ t) : x = y ∧ s = t := by
  have hxy : x = y := by
    have hLeft := List.prefix_append (Value.utf8 x) s
    have hRight := h ▸ List.prefix_append (Value.utf8 y) t
    rcases List.prefix_or_prefix_of_prefix hLeft hRight with hPrefix | hPrefix
    · exact hFree x hx y hy hPrefix
    · exact (hFree y hy x hx hPrefix).symm
  subst hxy
  exact ⟨rfl, List.append_cancel_left h⟩

namespace Value

mutual

/-- The texts, binary values and lists in a value are short enough for their lengths to be written
in eight bytes. -/
def Sized : Value → Prop
  | text s => (utf8 s).length < 2 ^ 64
  | bytes b => b.length < 2 ^ 64
  | list items => items.length < 2 ^ 64 ∧ SizedItems items
  | _ => True

/-- All of several values are sized. -/
def SizedItems : List Value → Prop
  | [] => True
  | item :: rest => Sized item ∧ SizedItems rest

end

/-- The word the byte sequence of a value begins with. -/
def tag : Value → String
  | null => "null"
  | boolean _ => "bool"
  | int32 _ => "i32"
  | int64 _ => "i64"
  | float64 _ => "f64"
  | text _ => "str"
  | dateTime _ => "dt"
  | bytes _ => "bytes"
  | list _ => "list"

/-- The byte sequence of a value after its tag. -/
def content : Value → List UInt8
  | null => []
  | boolean b => [if b then 1 else 0]
  | int32 n => littleEndian 4 n.toUInt32.toNat
  | int64 n => littleEndian 8 n.toUInt64.toNat
  | float64 x => littleEndian 8 x.bits.toNat
  | text s => encodeText s
  | dateTime n => littleEndian 8 n.toUInt64.toNat
  | bytes b => lengthPrefixed b
  | list items => littleEndian 8 items.length ++ encodeItems items

theorem encode_eq_tag_append (value : Value) : value.encode = utf8 value.tag ++ value.content := by
  cases value <;> simp [encode, tag, content]

/-- The tags of values. -/
def tags : List String := ["null", "bool", "i32", "i64", "f64", "str", "dt", "bytes", "list"]

theorem tag_mem_tags (value : Value) : value.tag ∈ tags := by cases value <;> simp [tag, tags]

theorem prefixFree_tags : PrefixFree tags := by decide

theorem content_append_of_encode_append {a b : Value} {s t : List UInt8}
    (h : a.encode ++ s = b.encode ++ t) : a.tag = b.tag ∧ a.content ++ s = b.content ++ t := by
  simp only [encode_eq_tag_append, List.append_assoc] at h
  exact prefixFree_tags.append_inj a.tag_mem_tags b.tag_mem_tags h

mutual

/-- A value can be read off the front of any bytes. -/
theorem encode_append_inj : ∀ {a b : Value} {s t : List UInt8}, a.Sized → b.Sized →
    a.encode ++ s = b.encode ++ t → a = b ∧ s = t
  | null, b, s, t, _, _, h => by
      obtain ⟨hTag, hContent⟩ := content_append_of_encode_append h
      cases b with
      | null => exact ⟨rfl, hContent⟩
      | _ => simp [tag] at hTag
  | boolean p, b, s, t, _, _, h => by
      obtain ⟨hTag, hContent⟩ := content_append_of_encode_append h
      cases b with
      | boolean q =>
          obtain ⟨hByte, hEnd⟩ := List.cons.inj hContent
          have hSame : p = q := by cases p <;> cases q <;> simp at hByte ⊢
          exact ⟨congrArg boolean hSame, hEnd⟩
      | _ => simp [tag] at hTag
  | int32 m, b, s, t, _, _, h => by
      obtain ⟨hTag, hContent⟩ := content_append_of_encode_append h
      cases b with
      | int32 n =>
          obtain ⟨hNumber, hEnd⟩ :=
            littleEndian_append_inj m.toUInt32.toNat_lt n.toUInt32.toNat_lt hContent
          have hBits := UInt32.toNat_inj.mp hNumber
          exact ⟨congrArg (fun bits => int32 ⟨bits⟩) hBits, hEnd⟩
      | _ => simp [tag] at hTag
  | int64 m, b, s, t, _, _, h => by
      obtain ⟨hTag, hContent⟩ := content_append_of_encode_append h
      cases b with
      | int64 n =>
          obtain ⟨hBits, hEnd⟩ := littleEndian_toNat_append_inj hContent
          exact ⟨congrArg (fun bits => int64 ⟨bits⟩) hBits, hEnd⟩
      | _ => simp [tag] at hTag
  | float64 x, b, s, t, _, _, h => by
      obtain ⟨hTag, hContent⟩ := content_append_of_encode_append h
      cases b with
      | float64 y =>
          obtain ⟨hBits, hEnd⟩ := littleEndian_toNat_append_inj hContent
          exact ⟨congrArg (fun bits => float64 ⟨bits⟩) hBits, hEnd⟩
      | _ => simp [tag] at hTag
  | text x, b, s, t, ha, hb, h => by
      obtain ⟨hTag, hContent⟩ := content_append_of_encode_append h
      cases b with
      | text y =>
          rw [Sized] at ha hb
          obtain ⟨rfl, hEnd⟩ := encodeText_append_inj ha hb hContent
          exact ⟨rfl, hEnd⟩
      | _ => simp [tag] at hTag
  | dateTime m, b, s, t, _, _, h => by
      obtain ⟨hTag, hContent⟩ := content_append_of_encode_append h
      cases b with
      | dateTime n =>
          obtain ⟨hBits, hEnd⟩ := littleEndian_toNat_append_inj hContent
          exact ⟨congrArg (fun bits => dateTime ⟨bits⟩) hBits, hEnd⟩
      | _ => simp [tag] at hTag
  | bytes x, b, s, t, ha, hb, h => by
      obtain ⟨hTag, hContent⟩ := content_append_of_encode_append h
      cases b with
      | bytes y =>
          rw [Sized] at ha hb
          obtain ⟨rfl, hEnd⟩ := lengthPrefixed_append_inj ha hb hContent
          exact ⟨rfl, hEnd⟩
      | _ => simp [tag] at hTag
  | list xs, b, s, t, ha, hb, h => by
      obtain ⟨hTag, hContent⟩ := content_append_of_encode_append h
      cases b with
      | list ys =>
          rw [Sized] at ha hb
          simp only [content, List.append_assoc] at hContent
          obtain ⟨hLength, hItems⟩ := littleEndian_append_inj ha.1 hb.1 hContent
          obtain ⟨rfl, hEnd⟩ := encodeItems_append_inj ha.2 hb.2 hLength hItems
          exact ⟨rfl, hEnd⟩
      | _ => simp [tag] at hTag

/-- Values of a known number can be read off the front of any bytes. -/
theorem encodeItems_append_inj : ∀ {xs ys : List Value} {s t : List UInt8}, SizedItems xs →
    SizedItems ys → xs.length = ys.length → encodeItems xs ++ s = encodeItems ys ++ t →
    xs = ys ∧ s = t
  | [], ys, s, t, _, _, hLength, h => by
      obtain rfl := List.length_eq_zero_iff.mp hLength.symm
      exact ⟨rfl, h⟩
  | x :: xs, ys, s, t, hxs, hys, hLength, h => by
      cases ys with
      | nil => cases hLength
      | cons y ys =>
          rw [SizedItems] at hxs hys
          simp only [encodeItems, List.append_assoc] at h
          obtain ⟨rfl, hRest⟩ := encode_append_inj hxs.1 hys.1 h
          obtain ⟨rfl, hEnd⟩ :=
            encodeItems_append_inj hxs.2 hys.2 (Nat.succ.inj hLength) hRest
          exact ⟨rfl, hEnd⟩

end

end Value

theorem BinaryOp.all_code (op : BinaryOp) : all[op.code.toNat]? = some op := by cases op <;> rfl

theorem BinaryOp.code_inj {op op' : BinaryOp} (h : op.code = op'.code) : op = op' := by
  have hPlace := op.all_code
  rw [h, op'.all_code] at hPlace
  exact (Option.some.inj hPlace).symm

theorem UnaryOp.code_inj {op op' : UnaryOp} (h : op.code = op'.code) : op = op' := by
  cases op <;> cases op' <;> simp [code] at h ⊢

theorem Direction.code_inj {d e : Direction} (h : d.code = e.code) : d = e := by
  cases d <;> cases e <;> simp [code] at h ⊢

namespace Expr

mutual

/-- The names, literals and argument lists in an expression are short enough for their lengths to
be written in eight bytes. -/
def Sized : Expr → Prop
  | field name => (Value.utf8 name).length < 2 ^ 64
  | literal value => value.Sized
  | argument _ | thunk _ => True
  | binary _ left right => Sized left ∧ Sized right
  | unary _ operand => Sized operand
  | contains haystack needle => Sized haystack ∧ Sized needle
  | call name arguments =>
    (Value.utf8 name).length < 2 ^ 64 ∧ arguments.length < 2 ^ 64 ∧ SizedItems arguments

/-- All of several expressions are sized. -/
def SizedItems : List Expr → Prop
  | [] => True
  | item :: rest => Sized item ∧ SizedItems rest

end

/-- The word the byte sequence of an expression begins with. -/
def tag : Expr → String
  | field _ => "field"
  | literal _ => "lit"
  | argument _ => "param"
  | thunk _ => "thunk"
  | binary _ _ _ => "binop"
  | unary _ _ => "unop"
  | contains _ _ => "contains"
  | call _ _ => "call"

/-- The byte sequence of an expression after its tag. -/
def content : Expr → List UInt8
  | field name => encodeText name
  | literal value => value.encode
  | argument place => littleEndian 8 place.toNat
  | thunk t => littleEndian 8 t.id.toNat
  | binary op left right => op.code :: left.encode ++ right.encode
  | unary op operand => op.code :: operand.encode
  | contains haystack needle => haystack.encode ++ needle.encode
  | call name arguments =>
    encodeText name ++ littleEndian 8 arguments.length ++ encodeArguments arguments

theorem encode_eq_tag_append (expr : Expr) :
    expr.encode = Value.utf8 expr.tag ++ expr.content := by
  cases expr <;> simp [encode, tag, content]

/-- The tags of expressions. -/
def tags : List String :=
  ["field", "lit", "param", "thunk", "binop", "unop", "contains", "call"]

theorem tag_mem_tags (expr : Expr) : expr.tag ∈ tags := by cases expr <;> simp [tag, tags]

theorem prefixFree_tags : PrefixFree tags := by decide

theorem content_append_of_encode_append {a b : Expr} {s t : List UInt8}
    (h : a.encode ++ s = b.encode ++ t) : a.tag = b.tag ∧ a.content ++ s = b.content ++ t := by
  simp only [encode_eq_tag_append, List.append_assoc] at h
  exact prefixFree_tags.append_inj a.tag_mem_tags b.tag_mem_tags h

mutual

/-- An expression can be read off the front of any bytes, up to the functions of its thunks. -/
theorem same_of_encode_append : ∀ {a b : Expr} {s t : List UInt8}, a.Sized → b.Sized →
    a.encode ++ s = b.encode ++ t → same a b = true ∧ s = t
  | field x, b, s, t, ha, hb, h => by
      obtain ⟨hTag, hContent⟩ := content_append_of_encode_append h
      cases b with
      | field y =>
          rw [Sized] at ha hb
          obtain ⟨rfl, hEnd⟩ := encodeText_append_inj ha hb hContent
          exact ⟨by simp [same], hEnd⟩
      | _ => simp [tag] at hTag
  | literal v, b, s, t, ha, hb, h => by
      obtain ⟨hTag, hContent⟩ := content_append_of_encode_append h
      cases b with
      | literal w =>
          rw [Sized] at ha hb
          obtain ⟨hValue, hEnd⟩ := Value.encode_append_inj ha hb hContent
          exact ⟨by rw [same, Value.identical_iff, hValue], hEnd⟩
      | _ => simp [tag] at hTag
  | argument m, b, s, t, _, _, h => by
      obtain ⟨hTag, hContent⟩ := content_append_of_encode_append h
      cases b with
      | argument n =>
          obtain ⟨hPlace, hEnd⟩ := littleEndian_toNat_append_inj hContent
          exact ⟨by rw [same, hPlace, beq_self_eq_true], hEnd⟩
      | _ => simp [tag] at hTag
  | thunk f, b, s, t, _, _, h => by
      obtain ⟨hTag, hContent⟩ := content_append_of_encode_append h
      cases b with
      | thunk g =>
          obtain ⟨hId, hEnd⟩ := littleEndian_toNat_append_inj hContent
          exact ⟨by rw [same, hId, beq_self_eq_true], hEnd⟩
      | _ => simp [tag] at hTag
  | binary op left right, b, s, t, ha, hb, h => by
      obtain ⟨hTag, hContent⟩ := content_append_of_encode_append h
      cases b with
      | binary op' left' right' =>
          rw [Sized] at ha hb
          simp only [content, List.cons_append, List.append_assoc] at hContent
          obtain ⟨hCode, hRest⟩ := List.cons.inj hContent
          obtain ⟨hLeft, hRest⟩ := same_of_encode_append ha.1 hb.1 hRest
          obtain ⟨hRight, hEnd⟩ := same_of_encode_append ha.2 hb.2 hRest
          exact ⟨by simp [same, BinaryOp.code_inj hCode, hLeft, hRight], hEnd⟩
      | _ => simp [tag] at hTag
  | unary op operand, b, s, t, ha, hb, h => by
      obtain ⟨hTag, hContent⟩ := content_append_of_encode_append h
      cases b with
      | unary op' operand' =>
          rw [Sized] at ha hb
          obtain ⟨hCode, hRest⟩ := List.cons.inj hContent
          obtain ⟨hOperand, hEnd⟩ := same_of_encode_append ha hb hRest
          exact ⟨by simp [same, UnaryOp.code_inj hCode, hOperand], hEnd⟩
      | _ => simp [tag] at hTag
  | contains haystack needle, b, s, t, ha, hb, h => by
      obtain ⟨hTag, hContent⟩ := content_append_of_encode_append h
      cases b with
      | contains haystack' needle' =>
          rw [Sized] at ha hb
          simp only [content, List.append_assoc] at hContent
          obtain ⟨hHaystack, hRest⟩ := same_of_encode_append ha.1 hb.1 hContent
          obtain ⟨hNeedle, hEnd⟩ := same_of_encode_append ha.2 hb.2 hRest
          exact ⟨by simp [same, hHaystack, hNeedle], hEnd⟩
      | _ => simp [tag] at hTag
  | call name arguments, b, s, t, ha, hb, h => by
      obtain ⟨hTag, hContent⟩ := content_append_of_encode_append h
      cases b with
      | call name' arguments' =>
          rw [Sized] at ha hb
          simp only [content, List.append_assoc] at hContent
          obtain ⟨hName, hRest⟩ := encodeText_append_inj ha.1 hb.1 hContent
          obtain ⟨hLength, hRest⟩ := littleEndian_append_inj ha.2.1 hb.2.1 hRest
          obtain ⟨hArguments, hEnd⟩ :=
            sameItems_of_encodeArguments_append ha.2.2 hb.2.2 hLength hRest
          exact ⟨by simp [same, hName, hArguments], hEnd⟩
      | _ => simp [tag] at hTag

/-- Expressions of a known number can be read off the front of any bytes. -/
theorem sameItems_of_encodeArguments_append : ∀ {as bs : List Expr} {s t : List UInt8},
    SizedItems as → SizedItems bs → as.length = bs.length →
    encodeArguments as ++ s = encodeArguments bs ++ t → sameItems as bs = true ∧ s = t
  | [], bs, s, t, _, _, hLength, h => by
      obtain rfl := List.length_eq_zero_iff.mp hLength.symm
      exact ⟨rfl, h⟩
  | a :: as, bs, s, t, has, hbs, hLength, h => by
      cases bs with
      | nil => cases hLength
      | cons b bs =>
          rw [SizedItems] at has hbs
          simp only [encodeArguments, List.append_assoc] at h
          obtain ⟨hFirst, hRest⟩ := same_of_encode_append has.1 hbs.1 h
          obtain ⟨hItems, hEnd⟩ :=
            sameItems_of_encodeArguments_append has.2 hbs.2 (Nat.succ.inj hLength) hRest
          exact ⟨by simp [sameItems, hFirst, hItems], hEnd⟩

end

mutual

/-- Expressions that are the same have one byte sequence. -/
theorem encode_eq_of_same : ∀ {a b : Expr}, same a b = true → a.encode = b.encode
  | field _, b, h => by
      cases b <;> simp_all [same]
  | literal _, b, h => by
      cases b <;> simp_all [same, Value.identical_iff]
  | argument _, b, h => by
      cases b <;> simp_all [same]
  | thunk _, b, h => by
      cases b <;> simp_all [same, encode]
  | binary op left right, b, h => by
      cases b with
      | binary op' left' right' =>
          simp only [same, Bool.and_eq_true, decide_eq_true_eq] at h
          rw [encode, encode, h.1.1, encode_eq_of_same h.1.2, encode_eq_of_same h.2]
      | _ => simp [same] at h
  | unary op operand, b, h => by
      cases b with
      | unary op' operand' =>
          simp only [same, Bool.and_eq_true, decide_eq_true_eq] at h
          rw [encode, encode, h.1, encode_eq_of_same h.2]
      | _ => simp [same] at h
  | contains haystack needle, b, h => by
      cases b with
      | contains haystack' needle' =>
          simp only [same, Bool.and_eq_true] at h
          rw [encode, encode, encode_eq_of_same h.1, encode_eq_of_same h.2]
      | _ => simp [same] at h
  | call name arguments, b, h => by
      cases b with
      | call name' arguments' =>
          simp only [same, Bool.and_eq_true, beq_iff_eq] at h
          obtain ⟨hLength, hArguments⟩ := encodeArguments_eq_of_sameItems h.2
          rw [encode, encode, h.1, hLength, hArguments]
      | _ => simp [same] at h

/-- Lists of expressions that are the same have one length and one byte sequence. -/
theorem encodeArguments_eq_of_sameItems : ∀ {as bs : List Expr}, sameItems as bs = true →
    as.length = bs.length ∧ encodeArguments as = encodeArguments bs
  | [], bs, h => by
      cases bs with
      | nil => exact ⟨rfl, rfl⟩
      | cons _ _ => simp [sameItems] at h
  | a :: as, bs, h => by
      cases bs with
      | nil => simp [sameItems] at h
      | cons b bs =>
          simp only [sameItems, Bool.and_eq_true] at h
          obtain ⟨hLength, hRest⟩ := encodeArguments_eq_of_sameItems h.2
          rw [encodeArguments, encodeArguments, encode_eq_of_same h.1, hRest]
          exact ⟨congrArg Nat.succ hLength, rfl⟩

end

theorem encode_eq_iff_same {a b : Expr} (ha : a.Sized) (hb : b.Sized) :
    a.encode = b.encode ↔ a.same b = true := by
  constructor
  · intro h
    have hAppend : a.encode ++ [] = b.encode ++ [] := by rw [h]
    exact (same_of_encode_append ha hb hAppend).1
  · exact encode_eq_of_same

theorem same_of_prefix_encode {a b : Expr} (ha : a.Sized) (hb : b.Sized)
    (h : a.encode <+: b.encode) : a.same b = true := by
  obtain ⟨rest, hRest⟩ := h
  rw [← List.append_nil b.encode] at hRest
  exact (same_of_encode_append ha hb hRest).1

theorem fingerprintBytes_eq_iff {a b : Expr} (ha : a.Sized) (hb : b.Sized) (d e : Direction) :
    a.fingerprintBytes d = b.fingerprintBytes e ↔ d = e ∧ a.same b = true := by
  unfold fingerprintBytes
  rw [List.cons.injEq, encode_eq_iff_same ha hb]
  exact and_congr_left' ⟨Direction.code_inj, congrArg Direction.code⟩

end Expr

/-- One step of the hash in arithmetic on numbers: exclusive or with the byte, then a product with
the prime of the hash, modulo `2 ^ 64`. -/
def fnv1aStep (state : Nat) (byte : UInt8) : Nat :=
  (state ^^^ byte.toNat) * (2 ^ 40 + 2 ^ 8 + 0xb3) % 2 ^ 64

/-- The hash in arithmetic on numbers: every byte in turn, from the offset basis of the hash. -/
def fnv1a (bytes : List UInt8) : Nat := bytes.foldl fnv1aStep 14695981039346656037

theorem toNat_hashByte (state : UInt64) (byte : UInt8) :
    (hashByte state byte).toNat = fnv1aStep state.toNat byte := by
  simp [hashByte, fnv1aStep]

theorem toNat_hashBytes (bytes : List UInt8) : (hashBytes bytes).toNat = fnv1a bytes :=
  (List.foldl_hom UInt64.toNat fun state byte => (toNat_hashByte state byte).symm).symm

namespace Expr

/-- The fingerprint is the hash of a byte sequence that tells apart any two predicates, and either
direction, and that never begins the sequence of another predicate. What the cache takes for the
same predicate therefore has the same fingerprint, and two predicates the cache tells apart share a
fingerprint only where the hash takes two different sequences to one number. -/
theorem fingerprintBytes_injective {a b : Expr} (ha : a.Sized) (hb : b.Sized) (d e : Direction) :
    (a.fingerprint d).toNat = fnv1a (a.fingerprintBytes d) ∧
    (a.fingerprintBytes d = b.fingerprintBytes e ↔ d = e ∧ a.same b = true) ∧
    (a.encode <+: b.encode → a.encode = b.encode) ∧
    (a.fingerprintBytes d <+: b.fingerprintBytes e →
      a.fingerprintBytes d = b.fingerprintBytes e) ∧
    (∀ entry : CachedPlan, entry.source = some (a, d) →
      PlanCache.CachedPlan.isOf entry b e = true →
      a.fingerprint d = b.fingerprint e) ∧
    (a.fingerprint d = b.fingerprint e → ¬(d = e ∧ a.same b = true) →
      a.fingerprintBytes d ≠ b.fingerprintBytes e ∧
      fnv1a (a.fingerprintBytes d) = fnv1a (b.fingerprintBytes e)) := by
  have hBytes := fingerprintBytes_eq_iff ha hb d e
  have hPrefix (h : a.encode <+: b.encode) : a.encode = b.encode :=
    encode_eq_of_same (same_of_prefix_encode ha hb h)
  refine ⟨toNat_hashBytes _, hBytes, hPrefix, ?_, ?_, ?_⟩
  · intro h
    obtain ⟨hCode, hEncode⟩ := List.cons_prefix_cons.mp h
    rw [fingerprintBytes, fingerprintBytes, hCode, hPrefix hEncode]
  · intro entry hSource hOf
    have hSame : d = e ∧ a.same b = true := by simpa [PlanCache.CachedPlan.isOf, hSource] using hOf
    rw [fingerprint, fingerprint, hBytes.mpr hSame]
  · intro hHash hDifferent
    refine ⟨fun h => hDifferent (hBytes.mp h), ?_⟩
    rw [← toNat_hashBytes, ← toNat_hashBytes]
    exact congrArg UInt64.toNat hHash

/-- Thunks of one identity are written alike, whatever they compute; the items of a list and the
arguments of a call are counted. -/
theorem fingerprintBytes_injective_of_thunks :
    let call (f : List Value → Value) : Expr :=
      .call "f" [.literal (.list [.null, .text "ab", .list []]), .thunk ⟨7, f⟩]
    let a := call fun _ => .null
    let b := call fun arguments => .list arguments
    a.Sized ∧ b.Sized ∧ a.fingerprintBytes .descending = b.fingerprintBytes .descending ∧
      a.fingerprintBytes .descending ≠ b.fingerprintBytes .ascending := by
  intro call a b
  have ha : a.Sized := by
    simp only [a, call, Sized, SizedItems, Value.Sized, Value.SizedItems]
    decide
  have hb : b.Sized := ha
  have hSame : a.same b = true := by decide
  refine ⟨ha, hb, ?_, ?_⟩
  · exact (fingerprintBytes_injective ha hb _ _).2.1.mpr ⟨rfl, hSame⟩
  · intro h
    have hDirection := ((fingerprintBytes_injective ha hb _ _).2.1.mp h).1
    cases hDirection

end Expr

end IndexedTable
