import Mathlib.Data.String.Basic
import Parabix.Library.PrefixOrder
import Parabix.RE.Memoization

namespace Parabix.RE.Memoization

open Library UCD

section Map

variable {κ κ' π π' : Type}

mutual

def Node.map (f : κ → κ') (g : π → π') : Node κ π → Node κ' π'
  | .alt elems => .alt (mapElems f g elems)
  | .any => .any
  | .assertion asserted kind sense => .assertion (asserted.map f g) kind sense
  | .cc c => .cc (f c)
  | .range lo hi => .range (lo.map f g) (hi.map f g)
  | .diff lh rh => .diff (lh.map f g) (rh.map f g)
  | .stop => .stop
  | .intersect lh rh => .intersect (lh.map f g) (rh.map f g)
  | .name ns n d => .name ns n (mapOption f g d)
  | .propertyExpression k i o v => .propertyExpression k i o v
  | .capture n d => .capture n (mapOption f g d)
  | .reference n i d p => .reference n i (mapOption f g d) (g p)
  | .group mode re sense => .group mode (re.map f g) sense
  | .rep re lb ub => .rep (re.map f g) lb ub
  | .seq elems => .seq (mapElems f g elems)
  | .start => .start

def mapElems (f : κ → κ') (g : π → π') : List (Node κ π) → List (Node κ' π')
  | [] => []
  | e :: es => e.map f g :: mapElems f g es

def mapOption (f : κ → κ') (g : π → π') : Option (Node κ π) → Option (Node κ' π')
  | none => none
  | some e => some (e.map f g)

end

theorem length_mapElems (f : κ → κ') (g : π → π') (es : List (Node κ π)) :
    (mapElems f g es).length = es.length := by
  induction es with
  | nil => rw [mapElems]; rfl
  | cons e es ih => rw [mapElems, List.length_cons, List.length_cons, ih]

/-- What an expression says: its classes are sets of symbols of an alphabet. -/
def expression : Expr → Node (Set ℕ × ℕ) ℕ :=
  Node.map (fun c ↦ (c.set.members, c.alphabet)) id

/-- What the comparison sees of an expression: neither the alphabets of the classes nor the
properties of the references. -/
def compared : Expr → Node Key Unit := Node.map (fun c ↦ c.set.key) fun _ ↦ ()

mutual

/-- An expression without the nodes whose operands are compared the wrong way round. -/
def ordered : Expr → Bool
  | .range _ _ | .diff _ _ | .intersect _ _ => false
  | .alt elems | .seq elems => orderedElems elems
  | .assertion e _ _ | .group _ e _ | .rep e _ _ => ordered e
  | .name _ _ d | .capture _ d | .reference _ _ d _ => orderedOption d
  | .any | .stop | .start | .cc _ | .propertyExpression .. => true

def orderedElems : List Expr → Bool
  | [] => true
  | e :: es => ordered e && orderedElems es

def orderedOption : Option Expr → Bool
  | none => true
  | some e => ordered e

end

end Map

section Words

/-- A number, a text or the key of a class. -/
abbrev Token := ℤ ×ₗ String ×ₗ Key

def noKey : Key := toLex (0, toLex (0, toLex ([], [])))

def number (x : ℤ) : Token := toLex (x, toLex ("", noKey))

def text (s : String) : Token := toLex (0, toLex (s, noKey))

def classKey (key : Key) : Token := toLex (0, toLex ("", key))

def optionToInt {α : Type} (d : Option α) : ℤ := if d.isSome then 1 else 0

/-- The empty namespace comes last. -/
def namespaceToInt (s : String) : ℤ := if s ≠ "" then 0 else 1

mutual

/-- What is compared of expressions of one kind, in the order in which it is compared. -/
def body : Node Key Unit → List Token
  | .alt es => number es.length :: words es
  | .seq es => number es.length :: words es
  | .assertion a k s =>
    number (kindToNat k) :: number (senseToNat s) :: number (ClassTypeId a) :: body a
  | .group m r s => number m.toNat :: number s.toNat :: number (ClassTypeId r) :: body r
  | .rep r l u => number l :: number u :: number (ClassTypeId r) :: body r
  | .name ns n d =>
    number (namespaceToInt ns) :: text ns :: text n :: number (optionToInt d) :: wordOption d
  | .capture n d => text n :: number (optionToInt d) :: wordOption d
  | .reference n i d _ => text n :: number i :: number (optionToInt d) :: wordOption d
  | .range l r => (number (ClassTypeId l) :: body l) ++ number (ClassTypeId r) :: body r
  | .diff l r => (number (ClassTypeId l) :: body l) ++ number (ClassTypeId r) :: body r
  | .intersect l r => (number (ClassTypeId l) :: body l) ++ number (ClassTypeId r) :: body r
  | .cc key => [classKey key]
  | .propertyExpression k i o v => [number k.toNat, text i, number o.toNat, text v]
  | .any => []
  | .stop => []
  | .start => []

def words : List (Node Key Unit) → List Token
  | [] => []
  | e :: es => (number (ClassTypeId e) :: body e) ++ words es

def wordOption : Option (Node Key Unit) → List Token
  | none => []
  | some e => number (ClassTypeId e) :: body e

end

def word (e : Node Key Unit) : List Token := number (ClassTypeId e) :: body e

variable {x y : ℤ} {s t : String} {key key' : Key}

@[simp] theorem number_lt_iff : number x < number y ↔ x < y := by
  simp [number, Prod.Lex.toLex_lt_toLex]

@[simp] theorem number_inj : number x = number y ↔ x = y := by
  simp [number]

@[simp] theorem text_lt_iff : text s < text t ↔ s < t := by
  simp [text, Prod.Lex.toLex_lt_toLex]

@[simp] theorem text_inj : text s = text t ↔ s = t := by
  simp [text]

@[simp] theorem classKey_lt_iff : classKey key < classKey key' ↔ key < key' := by
  simp [classKey, Prod.Lex.toLex_lt_toLex]

@[simp] theorem classKey_inj : classKey key = classKey key' ↔ key = key' := by
  simp [classKey]

theorem ClassTypeId_compared (e : Expr) : ClassTypeId (compared e) = ClassTypeId e := by
  cases e <;> rw [compared, Node.map] <;> rfl

theorem kindToNat_inj {k k' : Kind} (h : kindToNat k = kindToNat k') : k = k' := by
  cases k <;> cases k' <;> first | rfl | cases h

theorem senseToNat_inj {s s' : Sense} (h : senseToNat s = senseToNat s') : s = s' := by
  cases s <;> cases s' <;> first | rfl | cases h

theorem Mode.toNat_inj {m m' : Mode} (h : m.toNat = m'.toNat) : m = m' := by
  cases m <;> cases m' <;> first | rfl | cases h

theorem GroupSense.toNat_inj {s s' : GroupSense} (h : s.toNat = s'.toNat) : s = s' := by
  cases s <;> cases s' <;> first | rfl | cases h

theorem PropertyKind.toNat_inj {k k' : PropertyKind} (h : k.toNat = k'.toNat) : k = k' := by
  cases k <;> cases k' <;> first | rfl | cases h

theorem Operator.toNat_inj {o o' : Operator} (h : o.toNat = o'.toNat) : o = o' := by
  cases o <;> cases o' <;> first | rfl | cases h

section Fields

variable {less greater : Bool} {u v : List Token}

/-- Values of an enumeration. -/
theorem compares_value {β : Type} [DecidableEq β] {f : β → ℕ} {a b : β}
    (hinj : ∀ {a b : β}, f a = f b → a = b) (h : a = b → Compares less greater u v) :
    Compares (if a ≠ b then decide (f a < f b) else less)
      (if b ≠ a then decide (f b < f a) else greater) (number (f a) :: u) (number (f b) :: v) := by
  have hiff {a b : β} : number (f a) = number (f b) ↔ a = b := by
    rw [number_inj, Int.natCast_inj]
    exact ⟨hinj, congrArg f⟩
  refine Compares.field (not_congr hiff.symm) (not_congr hiff.symm) ?_ ?_ fun heq ↦ h (hiff.1 heq)
  · rw [decide_eq_decide, number_lt_iff, Int.ofNat_lt]
  · rw [decide_eq_decide, number_lt_iff, Int.ofNat_lt]

theorem compares_number (h : x = y → Compares less greater u v) :
    Compares (if x ≠ y then decide (x < y) else less) (if y ≠ x then decide (y < x) else greater)
      (number x :: u) (number y :: v) := by
  refine Compares.field (not_congr number_inj.symm) (not_congr number_inj.symm) ?_ ?_
    fun heq ↦ h (number_inj.1 heq)
  · rw [decide_eq_decide, number_lt_iff]
  · rw [decide_eq_decide, number_lt_iff]

theorem compares_text (h : s = t → Compares less greater u v) :
    Compares (if s ≠ t then decide (s < t) else less) (if t ≠ s then decide (t < s) else greater)
      (text s :: u) (text t :: v) := by
  refine Compares.field (not_congr text_inj.symm) (not_congr text_inj.symm) ?_ ?_
    fun heq ↦ h (text_inj.1 heq)
  · rw [decide_eq_decide, text_lt_iff]
  · rw [decide_eq_decide, text_lt_iff]

theorem namespaceToInt_lt_iff : namespaceToInt s < namespaceToInt t ↔ s ≠ "" ∧ t = "" := by
  by_cases hs : s = "" <;> by_cases ht : t = "" <;> simp [namespaceToInt, hs, ht]

theorem namespaceToInt_inj : namespaceToInt s = namespaceToInt t ↔ (s ≠ "") = (t ≠ "") := by
  by_cases hs : s = "" <;> by_cases ht : t = "" <;> simp [namespaceToInt, hs, ht]

theorem compares_namespace (h : s = t → Compares less greater u v) :
    Compares
      (if (s ≠ "") ≠ (t ≠ "") then decide (s ≠ "")
        else if s ≠ "" ∧ s ≠ t then decide (s < t) else less)
      (if (t ≠ "") ≠ (s ≠ "") then decide (t ≠ "")
        else if t ≠ "" ∧ t ≠ s then decide (t < s) else greater)
      (number (namespaceToInt s) :: text s :: u) (number (namespaceToInt t) :: text t :: v) := by
  by_cases hflag : (s ≠ "") = (t ≠ "")
  · rw [if_neg (not_not.2 hflag), if_neg (not_not.2 hflag.symm), namespaceToInt_inj.2 hflag]
    refine (Compares.field ?_ ?_ ?_ ?_ fun heq ↦ h (text_inj.1 heq)).cons _
    · rw [ne_eq (text s), text_inj, and_iff_right_iff_imp]
      rintro hne rfl
      rw [ne_eq, eq_self, not_true, eq_comm, eq_iff_iff, iff_false, not_not] at hflag
      exact hne hflag.symm
    · rw [ne_eq (text t), text_inj, and_iff_right_iff_imp]
      rintro hne rfl
      rw [ne_eq, ne_eq, eq_self, not_true, eq_iff_iff, iff_false, not_not] at hflag
      exact hne hflag.symm
    · rw [decide_eq_decide, text_lt_iff]
    · rw [decide_eq_decide, text_lt_iff]
  · have hne : number (namespaceToInt s) ≠ number (namespaceToInt t) := by
      rwa [ne_eq, number_inj, namespaceToInt_inj]
    have hdecide {x y : String} (hxy : (x ≠ "") ≠ (y ≠ "")) :
        decide (x ≠ "") = decide (number (namespaceToInt x) < number (namespaceToInt y)) := by
      rw [decide_eq_decide, number_lt_iff, namespaceToInt_lt_iff, iff_self_and]
      intro hx
      by_contra hy
      exact hxy (by rw [eq_iff_iff, iff_true_intro hx, iff_true_intro (show y ≠ "" from hy)])
    rw [if_pos hflag, if_pos (Ne.symm hflag), hdecide hflag, hdecide (Ne.symm hflag)]
    exact Compares.head hne _ _

end Fields

section Injective

mutual

theorem body_inj (x y : Node Key Unit) (h : ClassTypeId x = ClassTypeId y) (p q : List Token)
    (heq : body x ++ p = body y ++ q) : x = y ∧ p = q := by
  cases x with
  | alt es =>
    cases y with
    | alt fs =>
      rw [body, body, List.cons_append, List.cons_append, List.cons.injEq, number_inj,
        Int.natCast_inj] at heq
      obtain ⟨rfl, rfl⟩ := words_inj es fs heq.1 p q heq.2
      exact ⟨rfl, rfl⟩
    | _ => cases h
  | seq es =>
    cases y with
    | seq fs =>
      rw [body, body, List.cons_append, List.cons_append, List.cons.injEq, number_inj,
        Int.natCast_inj] at heq
      obtain ⟨rfl, rfl⟩ := words_inj es fs heq.1 p q heq.2
      exact ⟨rfl, rfl⟩
    | _ => cases h
  | assertion e k s =>
    cases y with
    | assertion e' k' s' =>
      simp only [body, List.cons_append, List.cons.injEq, number_inj, Int.natCast_inj] at heq
      obtain rfl := kindToNat_inj heq.1
      obtain rfl := senseToNat_inj heq.2.1
      obtain ⟨rfl, rfl⟩ := body_inj e e' heq.2.2.1 p q heq.2.2.2
      exact ⟨rfl, rfl⟩
    | _ => cases h
  | group m e s =>
    cases y with
    | group m' e' s' =>
      simp only [body, List.cons_append, List.cons.injEq, number_inj, Int.natCast_inj] at heq
      obtain rfl := Mode.toNat_inj heq.1
      obtain rfl := GroupSense.toNat_inj heq.2.1
      obtain ⟨rfl, rfl⟩ := body_inj e e' heq.2.2.1 p q heq.2.2.2
      exact ⟨rfl, rfl⟩
    | _ => cases h
  | rep e l u =>
    cases y with
    | rep e' l' u' =>
      simp only [body, List.cons_append, List.cons.injEq, number_inj, Int.natCast_inj] at heq
      obtain ⟨rfl, rfl, hid, hrest⟩ := heq
      obtain ⟨rfl, rfl⟩ := body_inj e e' hid p q hrest
      exact ⟨rfl, rfl⟩
    | _ => cases h
  | name ns n d =>
    cases y with
    | name ns' n' d' =>
      simp only [body, List.cons_append, List.cons.injEq, text_inj] at heq
      obtain ⟨-, rfl, rfl, hsome, hrest⟩ := heq
      obtain ⟨rfl, rfl⟩ := option_inj d d' hsome p q hrest
      exact ⟨rfl, rfl⟩
    | _ => cases h
  | capture n d =>
    cases y with
    | capture n' d' =>
      simp only [body, List.cons_append, List.cons.injEq, text_inj] at heq
      obtain ⟨rfl, hsome, hrest⟩ := heq
      obtain ⟨rfl, rfl⟩ := option_inj d d' hsome p q hrest
      exact ⟨rfl, rfl⟩
    | _ => cases h
  | reference n i d r =>
    cases y with
    | reference n' i' d' r' =>
      simp only [body, List.cons_append, List.cons.injEq, text_inj] at heq
      obtain ⟨rfl, hi, hsome, hrest⟩ := heq
      obtain rfl := Int.natCast_inj.1 (number_inj.1 hi)
      obtain ⟨rfl, rfl⟩ := option_inj d d' hsome p q hrest
      exact ⟨rfl, rfl⟩
    | _ => cases h
  | cc key =>
    cases y with
    | cc key' =>
      simp only [body, List.cons_append, List.cons.injEq, classKey_inj] at heq
      obtain ⟨rfl, rfl⟩ := heq
      exact ⟨rfl, rfl⟩
    | _ => cases h
  | propertyExpression k i o v =>
    cases y with
    | propertyExpression k' i' o' v' =>
      simp only [body, List.cons_append, List.cons.injEq, number_inj, Int.natCast_inj,
        text_inj] at heq
      obtain ⟨hk, rfl, ho, rfl, rfl⟩ := heq
      obtain rfl := PropertyKind.toNat_inj hk
      obtain rfl := Operator.toNat_inj ho
      exact ⟨rfl, rfl⟩
    | _ => cases h
  | range l r =>
    cases y with
    | range l' r' =>
      simp only [body, List.cons_append, List.append_assoc, List.cons.injEq, number_inj,
        Int.natCast_inj] at heq
      obtain ⟨rfl, hrest⟩ := body_inj l l' heq.1 _ _ heq.2
      rw [List.cons.injEq, number_inj, Int.natCast_inj] at hrest
      obtain ⟨rfl, rfl⟩ := body_inj r r' hrest.1 p q hrest.2
      exact ⟨rfl, rfl⟩
    | _ => cases h
  | diff l r =>
    cases y with
    | diff l' r' =>
      simp only [body, List.cons_append, List.append_assoc, List.cons.injEq, number_inj,
        Int.natCast_inj] at heq
      obtain ⟨rfl, hrest⟩ := body_inj l l' heq.1 _ _ heq.2
      rw [List.cons.injEq, number_inj, Int.natCast_inj] at hrest
      obtain ⟨rfl, rfl⟩ := body_inj r r' hrest.1 p q hrest.2
      exact ⟨rfl, rfl⟩
    | _ => cases h
  | intersect l r =>
    cases y with
    | intersect l' r' =>
      simp only [body, List.cons_append, List.append_assoc, List.cons.injEq, number_inj,
        Int.natCast_inj] at heq
      obtain ⟨rfl, hrest⟩ := body_inj l l' heq.1 _ _ heq.2
      rw [List.cons.injEq, number_inj, Int.natCast_inj] at hrest
      obtain ⟨rfl, rfl⟩ := body_inj r r' hrest.1 p q hrest.2
      exact ⟨rfl, rfl⟩
    | _ => cases h
  | any =>
    cases y with
    | any =>
      exact ⟨rfl, heq⟩
    | _ => cases h
  | stop =>
    cases y with
    | stop =>
      exact ⟨rfl, heq⟩
    | _ => cases h
  | start =>
    cases y with
    | start =>
      exact ⟨rfl, heq⟩
    | _ => cases h
termination_by structural x

theorem words_inj (xs ys : List (Node Key Unit)) (h : xs.length = ys.length) (p q : List Token)
    (heq : words xs ++ p = words ys ++ q) : xs = ys ∧ p = q := by
  cases xs with
  | nil =>
    cases ys with
    | nil => exact ⟨rfl, heq⟩
    | cons y ys => cases h
  | cons x xs =>
    cases ys with
    | nil => cases h
    | cons y ys =>
      simp only [words, List.cons_append, List.append_assoc, List.cons.injEq, number_inj,
        Int.natCast_inj] at heq
      obtain ⟨rfl, hrest⟩ := body_inj x y heq.1 _ _ heq.2
      obtain ⟨rfl, rfl⟩ := words_inj xs ys (Nat.succ.inj h) p q hrest
      exact ⟨rfl, rfl⟩
termination_by structural xs

theorem option_inj (c d : Option (Node Key Unit))
    (h : number (optionToInt c) = number (optionToInt d)) (p q : List Token)
    (heq : wordOption c ++ p = wordOption d ++ q) : c = d ∧ p = q := by
  rw [number_inj] at h
  cases c with
  | none =>
    cases d with
    | none => exact ⟨rfl, heq⟩
    | some y => cases h
  | some x =>
    cases d with
    | none => cases h
    | some y =>
      simp only [wordOption, List.cons_append, List.cons.injEq, number_inj,
        Int.natCast_inj] at heq
      obtain ⟨rfl, rfl⟩ := body_inj x y heq.1 p q heq.2
      exact ⟨rfl, rfl⟩
termination_by structural c

end

theorem word_inj {x y : Node Key Unit} (h : word x = word y) : x = y := by
  rw [word, word, List.cons.injEq, number_inj, Int.natCast_inj] at h
  exact (body_inj x y h.1 [] [] (by rw [h.2])).1

end Injective

end Words

section Order

theorem compare_eq (a b : Expr) : compare a b =
    if ClassTypeId a ≠ ClassTypeId b then decide (ClassTypeId a < ClassTypeId b)
    else lessThan a b := by
  rw [compare]

/-- The kinds are compared first. -/
theorem compares_kind {a b : Expr} (h : ClassTypeId a = ClassTypeId b →
      Compares (lessThan a b) (lessThan b a) (body (compared a)) (body (compared b))) :
    Compares (compare a b) (compare b a) (word (compared a)) (word (compared b)) := by
  rw [compare_eq, compare_eq, word, word, ClassTypeId_compared, ClassTypeId_compared]
  exact compares_value (f := id) id h

theorem compares_class (c c' : Class) : Compares (c.set.less c'.set) (c'.set.less c.set)
    [classKey c.set.key] [classKey c'.set.key] := by
  have hless {c c' : Class} :
      c.set.less c'.set = decide (classKey c.set.key < classKey c'.set.key) := by
    rw [Bool.eq_iff_iff, less_iff c.wellFormed c'.wellFormed, decide_eq_true_iff, classKey_lt_iff]
  rw [hless, hless]
  exact Compares.letter _ _

/-- A last text. -/
theorem compares_last (s t : String) :
    Compares (decide (s < t)) (decide (t < s)) [text s] [text t] := by
  have hless {s t : String} : decide (s < t) = decide (text s < text t) := by
    rw [decide_eq_decide, text_lt_iff]
  rw [hless, hless]
  exact Compares.letter _ _

theorem lessElems_nil : lessElems [] [] = false := by simp [lessElems]

theorem lessThan_any : lessThan .any .any = false := by simp [lessThan]

theorem lessThan_stop : lessThan .stop .stop = false := by simp [lessThan]

theorem lessThan_start : lessThan .start .start = false := by simp [lessThan]

mutual

theorem compares_body (a b : Expr) (ha : ordered a = true) (hb : ordered b = true)
    (h : ClassTypeId a = ClassTypeId b) :
    Compares (lessThan a b) (lessThan b a) (body (compared a)) (body (compared b)) := by
  cases a with
  | alt es =>
    cases b with
    | alt fs =>
      rw [ordered] at ha hb
      rw [compared, Node.map, Node.map, body, body, lessThan, lessThan, length_mapElems,
        length_mapElems]
      exact compares_value (f := id) id fun hl ↦ compares_words es fs hl ha hb
    | _ => cases h
  | seq es =>
    cases b with
    | seq fs =>
      rw [ordered] at ha hb
      rw [compared, Node.map, Node.map, body, body, lessThan, lessThan, length_mapElems,
        length_mapElems]
      exact compares_value (f := id) id fun hl ↦ compares_words es fs hl ha hb
    | _ => cases h
  | assertion e k s =>
    cases b with
    | assertion e' k' s' =>
      rw [ordered] at ha hb
      rw [compared, Node.map, Node.map, body, body, lessThan, lessThan]
      exact compares_value kindToNat_inj fun _ ↦ compares_value senseToNat_inj fun _ ↦
        compares_kind fun heq ↦ compares_body e e' ha hb heq
    | _ => cases h
  | group m e s =>
    cases b with
    | group m' e' s' =>
      rw [ordered] at ha hb
      rw [compared, Node.map, Node.map, body, body, lessThan, lessThan]
      exact compares_value Mode.toNat_inj fun _ ↦ compares_value GroupSense.toNat_inj fun _ ↦
        compares_kind fun heq ↦ compares_body e e' ha hb heq
    | _ => cases h
  | rep e l u =>
    cases b with
    | rep e' l' u' =>
      rw [ordered] at ha hb
      rw [compared, Node.map, Node.map, body, body, lessThan, lessThan]
      exact compares_number fun _ ↦ compares_number fun _ ↦
        compares_kind fun heq ↦ compares_body e e' ha hb heq
    | _ => cases h
  | name ns n d =>
    cases b with
    | name ns' n' d' =>
      rw [ordered] at ha hb
      rw [compared, Node.map, Node.map, body, body, lessThan, lessThan]
      exact compares_namespace fun _ ↦ compares_text fun _ ↦ compares_option d d' ha hb
    | _ => cases h
  | capture n d =>
    cases b with
    | capture n' d' =>
      rw [ordered] at ha hb
      rw [compared, Node.map, Node.map, body, body, lessThan, lessThan]
      exact compares_text fun _ ↦ compares_option d d' ha hb
    | _ => cases h
  | reference n i d p =>
    cases b with
    | reference n' i' d' p' =>
      rw [ordered] at ha hb
      rw [compared, Node.map, Node.map, body, body, lessThan, lessThan]
      exact compares_text fun _ ↦ compares_value (f := id) id fun _ ↦ compares_option d d' ha hb
    | _ => cases h
  | cc c =>
    cases b with
    | cc c' =>
      rw [compared, Node.map, Node.map, body, body, lessThan, lessThan]
      exact compares_class c c'
    | _ => cases h
  | propertyExpression k i o v =>
    cases b with
    | propertyExpression k' i' o' v' =>
      rw [compared, Node.map, Node.map, body, body, lessThan, lessThan]
      exact compares_value PropertyKind.toNat_inj fun _ ↦ compares_text fun _ ↦
        compares_value Operator.toNat_inj fun _ ↦ compares_last v v'
    | _ => cases h
  | range l r => rw [ordered] at ha; cases ha
  | diff l r => rw [ordered] at ha; cases ha
  | intersect l r => rw [ordered] at ha; cases ha
  | any =>
    cases b with
    | any =>
      rw [lessThan_any, compared, Node.map, body]
      exact Compares.nil
    | _ => cases h
  | stop =>
    cases b with
    | stop =>
      rw [lessThan_stop, compared, Node.map, body]
      exact Compares.nil
    | _ => cases h
  | start =>
    cases b with
    | start =>
      rw [lessThan_start, compared, Node.map, body]
      exact Compares.nil
    | _ => cases h
termination_by structural a

theorem compares_words (as bs : List Expr) (hl : as.length = bs.length)
    (ha : orderedElems as = true) (hb : orderedElems bs = true) :
    Compares (lessElems as bs) (lessElems bs as)
      (words (mapElems (fun c ↦ c.set.key) (fun _ ↦ ()) as))
      (words (mapElems (fun c ↦ c.set.key) (fun _ ↦ ()) bs)) := by
  cases as with
  | nil =>
    cases bs with
    | nil =>
      rw [lessElems_nil, mapElems, words]
      exact Compares.nil
    | cons b bs => cases hl
  | cons a as =>
    cases bs with
    | nil => cases hl
    | cons b bs =>
      rw [orderedElems, Bool.and_eq_true] at ha hb
      rw [lessElems, lessElems, mapElems, mapElems, words, words]
      exact (compares_kind fun heq ↦ compares_body a b ha.1 hb.1 heq).append
        (compares_words as bs (Nat.succ.inj hl) ha.2 hb.2)
termination_by structural as

theorem compares_option (c d : Option Expr) (hc : orderedOption c = true)
    (hd : orderedOption d = true) :
    Compares (lessOption c d) (lessOption d c)
      (number (optionToInt (mapOption (fun c ↦ c.set.key) (fun _ ↦ ()) c)) ::
        wordOption (mapOption (fun c ↦ c.set.key) (fun _ ↦ ()) c))
      (number (optionToInt (mapOption (fun c ↦ c.set.key) (fun _ ↦ ()) d)) ::
        wordOption (mapOption (fun c ↦ c.set.key) (fun _ ↦ ()) d)) := by
  have hne : number 0 ≠ number 1 := by simp
  have hone : (true : Bool) = decide (number 0 < number 1) := by simp
  have hzero : (false : Bool) = decide (number 1 < number 0) := by simp
  cases c with
  | none =>
    cases d with
    | none =>
      rw [lessOption, mapOption, wordOption]
      exact Compares.nil.cons _
    | some e =>
      rw [lessOption, lessOption, mapOption, mapOption, wordOption, wordOption, Option.isSome_some,
        hone, hzero]
      exact Compares.head hne _ _
  | some e =>
    cases d with
    | none =>
      rw [lessOption, lessOption, mapOption, mapOption, wordOption, wordOption, Option.isSome_some,
        hone, hzero]
      exact Compares.head hne.symm _ _
    | some e' =>
      rw [orderedOption] at hc hd
      rw [lessOption, lessOption, mapOption, mapOption, wordOption, wordOption]
      exact (compares_kind fun heq ↦ compares_body e e' hc hd heq).cons _
termination_by structural c

end

theorem compares_expr {a b : Expr} (ha : ordered a = true) (hb : ordered b = true) :
    Compares (compare a b) (compare b a) (word (compared a)) (word (compared b)) :=
  compares_kind fun h ↦ compares_body a b ha hb h

end Order

section Irreflexive

theorem lessOperands_self {lessL lessR : Bool} :
    lessOperands lessL lessL lessR lessR = true := by
  cases lessL <;> cases lessR <;> rfl

theorem compare_self_eq (a : Expr) : compare a a = lessThan a a := by
  rw [compare_eq, if_neg (not_not.2 rfl)]

mutual

/-- An expression is less than itself iff it has a node whose operands are compared the wrong way
round. -/
theorem lessThan_self (a : Expr) : lessThan a a = !ordered a := by
  cases a with
  | alt es => rw [lessThan, ordered, if_neg (not_not.2 rfl), lessElems_self es]
  | seq es => rw [lessThan, ordered, if_neg (not_not.2 rfl), lessElems_self es]
  | assertion e k s =>
    rw [lessThan, ordered, if_neg (not_not.2 rfl), if_neg (not_not.2 rfl), compare_self_eq,
      lessThan_self e]
  | group m e s =>
    rw [lessThan, ordered, if_neg (not_not.2 rfl), if_neg (not_not.2 rfl), compare_self_eq,
      lessThan_self e]
  | rep e l u =>
    rw [lessThan, ordered, if_neg (not_not.2 rfl), if_neg (not_not.2 rfl), compare_self_eq,
      lessThan_self e]
  | name ns n d =>
    rw [lessThan, ordered, if_neg (not_not.2 rfl), if_neg (fun h ↦ h.2 rfl),
      if_neg (not_not.2 rfl), lessOption_self d]
  | capture n d => rw [lessThan, ordered, if_neg (not_not.2 rfl), lessOption_self d]
  | reference n i d p =>
    rw [lessThan, ordered, if_neg (not_not.2 rfl), if_neg (not_not.2 rfl), lessOption_self d]
  | cc c =>
    rw [lessThan, ordered, Bool.not_true, ← Bool.not_eq_true, less_iff c.wellFormed c.wellFormed]
    exact lt_irrefl _
  | propertyExpression k i o v =>
    rw [lessThan, ordered, if_neg (not_not.2 rfl), if_neg (not_not.2 rfl), if_neg (not_not.2 rfl),
      decide_eq_false (lt_irrefl v)]
    rfl
  | range l r => rw [lessThan, lessOperands_self, ordered, Bool.not_false]
  | diff l r => rw [lessThan, lessOperands_self, ordered, Bool.not_false]
  | intersect l r => rw [lessThan, lessOperands_self, ordered, Bool.not_false]
  | any => rw [lessThan_any, ordered, Bool.not_true]
  | stop => rw [lessThan_stop, ordered, Bool.not_true]
  | start => rw [lessThan_start, ordered, Bool.not_true]
termination_by structural a

theorem lessElems_self (es : List Expr) : lessElems es es = !orderedElems es := by
  cases es with
  | nil => rw [lessElems_nil, orderedElems, Bool.not_true]
  | cons e es =>
    rw [lessElems, orderedElems, compare_self_eq, lessThan_self e, lessElems_self es]
    cases ordered e <;> rfl
termination_by structural es

theorem lessOption_self (d : Option Expr) : lessOption d d = !orderedOption d := by
  cases d with
  | none => rw [lessOption, orderedOption]; rfl
  | some e => rw [lessOption, orderedOption, compare_self_eq, lessThan_self e]
termination_by structural d

end

theorem compare_self (a : Expr) : compare a a = !ordered a := by
  rw [compare_self_eq, lessThan_self]

end Irreflexive

section Comparator

variable {S : Set Expr} {a b c : Expr}

/-- The expressions that a memo table takes as one. -/
def Equivalent (a b : Expr) : Prop := compare a b = false ∧ compare b a = false

/-- The comparison is a strict weak ordering of a set of keys, and equivalent keys are the same
expression. -/
structure Keys (S : Set Expr) : Prop where
  irrefl (a : Expr) (ha : a ∈ S) : compare a a = false
  trans (a b c : Expr) (ha : a ∈ S) (hb : b ∈ S) (hc : c ∈ S) (hab : compare a b = true)
    (hbc : compare b c = true) : compare a c = true
  equivalent_trans (a b c : Expr) (ha : a ∈ S) (hb : b ∈ S) (hc : c ∈ S) (hab : Equivalent a b)
    (hbc : Equivalent b c) : Equivalent a c
  same (a b : Expr) (ha : a ∈ S) (hb : b ∈ S) (h : Equivalent a b) : expression a = expression b

theorem compare_iff (ha : ordered a = true) (hb : ordered b = true) :
    compare a b = true ↔ word (compared a) < word (compared b) := (compares_expr ha hb).less_iff

theorem equivalent_iff (ha : ordered a = true) (hb : ordered b = true) :
    Equivalent a b ↔ compared a = compared b := by
  rw [Equivalent, ← (compares_expr ha hb).eq_iff]
  exact ⟨word_inj, fun h ↦ by rw [h]⟩

end Comparator

end Parabix.RE.Memoization
