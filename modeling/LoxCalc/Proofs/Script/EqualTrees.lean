import LoxCalc.Proofs.Expr.PrefixForm
import LoxCalc.Proofs.Script.WrittenTrees

/-!
# Equal trees

Trees are compared by kind of node, operators as tokens, and literals by what they count for.  A
boolean counts for a number, so the comparison does not tell `true` from `1` nor `false` from `0`,
although the language does.  **For trees of sources this is all that it misses**: they are equal
exactly if they are the same tree once every boolean is replaced by its number (`Expr.counted`).

Number literals of sources have no sign and are no NaN, and such numbers are told apart by what
they count for; operators are spelled as their kind asks for and carry no value.  So what two equal
trees may differ in is a boolean in one that is a number in the other, and then they are printed
differently.

* `Scan.readable_of_tree?`: the literals of a source.
* `Expr.same_iff_counted`: what is compared.
* `Expr.same_alike`: when equal trees mean the same.
* `Expr.same_one_true`: equal trees that do not.
-/

namespace LoxCalc

/-! ### Literals of sources -/

/-- Whether a source has a literal for the value: it can be written, and a number has no sign and
is no NaN. -/
def Value.Readable (v : Value) : Prop :=
  v.Writable ∧ ∀ x, v = .number x → ∃ n, x = .ofRank false n

theorem Segment.readable_of_token? {s : Segment} {line : Nat} {t : Token}
    (ht : s.token? line = some t) (hspelled : t.WellSpelled) : t.literal.Readable := by
  refine ⟨hspelled.writable, fun x hx => ?_⟩
  cases s with
  | number whole fraction =>
    cases ht
    exact ⟨_, (Value.number.inj hx).symm⟩
  | symbol _ | string _ | word _ => cases ht; cases hx
  | blank _ | comment _ | unclosed _ | stray _ => cases ht

theorem Scan.readable_of_tree? {limits : Limits} {source : Source} {tree : Expr}
    (h : (Scan.ofSource source).tree? limits = some tree) :
    tree.AllLiterals Value.Readable := by
  refine Scan.allLiterals_of_tree? ⟨trivial, nofun⟩ (fun _ => ⟨trivial, nofun⟩) (fun t ht => ?_) h
  obtain ⟨s, -, line, hline⟩ := exists_token_of_mem_body _ _ t ht
  exact Segment.readable_of_token? hline (wellSpelled_ofSource source t ht)

/-! ### What literals count for -/

namespace Value

def isBoolean : Value → Bool
  | .bool _ => true
  | _ => false

/-- The value with the number that a boolean counts for in its place. -/
def counted : Value → Value
  | .bool b => .number (if b then .one else .zero)
  | v => v

theorem content_counted (v : Value) : v.counted.content = v.content := by
  cases v with
  | bool b => cases b <;> decide +kernel
  | nil | number _ | string _ | foreign _ => rfl

theorem readable_counted {v : Value} (h : v.Readable) : v.counted.Readable := by
  cases v with
  | bool b =>
    refine ⟨trivial, fun x hx => ?_⟩
    obtain rfl := Value.number.inj hx
    cases b
    · exact ⟨0, rfl⟩
    · exact ⟨0x3FF0000000000000, rfl⟩
  | nil | number _ | string _ | foreign _ => exact h

theorem isBoolean_counted (v : Value) : v.counted.isBoolean = false := by
  cases v <;> rfl

/-- The value that a source has for what literals count for, other than a boolean. -/
def Content.value : Content → Value
  | .nothing => .nil
  | .amount grains => .number (.ofGrains false grains.toNat 1)
  | .unbounded negative => .number (.infinite negative)
  | .undefined => .number .nan
  | .text s => .string s

/-- **A literal of a source is known from what it counts for**, booleans aside. -/
theorem value_content {v : Value} (hv : v.Readable) (hb : v.isBoolean = false) :
    v.content.value = v := by
  cases v with
  | nil | string _ => rfl
  | bool b => cases hb
  | foreign n => exact hv.1.elim
  | number x =>
    obtain ⟨n, rfl⟩ := hv.2 x rfl
    by_cases hn : n < Number.rankBound
    · have hfinite : Number.ofRank false n = .finite false ⟨n, hn⟩ := dif_pos hn
      have hcontent : (number (.finite false ⟨n, hn⟩)).content.value =
          .number (.ofRank false (Number.nearestRank (Number.grains n) 1)) := rfl
      rw [hfinite, hcontent, Number.nearestRank_grains, hfinite]
    · have hinfinite : Number.ofRank false n = .infinite false := dif_neg hn
      rw [hinfinite]
      rfl

/-- **What the comparison of literals sees**: the value, with a number for a boolean. -/
theorem sameLiteral_iff_counted {v w : Value} (hv : v.Readable) (hw : w.Readable) :
    v.sameLiteral w = true ↔ v.counted = w.counted := by
  rw [sameLiteral, decide_eq_true_eq, ← content_counted v, ← content_counted w]
  refine ⟨fun h => ?_, fun h => by rw [h]⟩
  rw [← value_content (readable_counted hv) (isBoolean_counted v), h,
    value_content (readable_counted hw) (isBoolean_counted w)]

theorem eq_of_counted {v w : Value} (htype : v.isBoolean = w.isBoolean)
    (h : v.counted = w.counted) : v = w := by
  have hnumber : ∀ b b' : Bool, counted (.bool b) = counted (.bool b') → b = b' := by decide
  cases v with
  | bool b =>
    cases w with
    | bool b' => rw [hnumber b b' h]
    | nil | number _ | string _ | foreign _ => cases htype
  | nil | number _ | string _ | foreign _ =>
    cases w with
    | bool b' => cases htype
    | nil | number _ | string _ | foreign _ => exact h

end Value

/-! ### Trees -/

namespace Expr

/-- The tree with a number for every boolean. -/
def counted : Expr → Expr
  | .literal v => .literal v.counted
  | .grouping e => .grouping e.counted
  | .unary op e => .unary op e.counted
  | .binary l op r => .binary l.counted op r.counted
  | .conditional c t e => .conditional c.counted t.counted e.counted
  | e => e

/-- Whether no literal is a boolean in one tree and none in the other. -/
def TypesAgree (t u : Expr) : Prop :=
  ∀ p v w, t.at? p = some (.literal v) → u.at? p = some (.literal w) → v.isBoolean = w.isBoolean

/-- Whether two trees are printed alike in both forms and their evaluations end alike, within all
limits and with all numbers of decimal places. -/
structure Alike (t u : Expr) : Prop where
  prefixForm : ∀ a, t.prefixForm a = u.prefixForm a
  infixForm : ∀ a, t.infixForm a = u.infixForm a
  evaluate : ∀ a places, t.evaluate a places = u.evaluate a places

theorem same_operator_iff {op op' : Token} (h : op.AsScanned) (h' : op'.AsScanned) :
    op.same op' = true ↔ op = op' := by
  rw [Token.AsScanned] at h h'
  constructor
  · intro hsame
    simp only [Token.same, Bool.and_eq_true, beq_iff_eq] at hsame
    rw [h, h', hsame.1.1.1, hsame.2]
  · rintro rfl
    simp [Token.same, Value.sameLiteral]

/-- **Trees of sources are equal exactly if they are the same tree with numbers for booleans.** -/
theorem same_iff_counted {t : Expr} (ht : t.OperatorsKnown)
    (htl : t.AllLiterals Value.Readable) : ∀ {u : Expr}, u.OperatorsKnown →
      u.AllLiterals Value.Readable → (t.same u = true ↔ t.counted = u.counted) := by
  induction t with
  | literal v =>
    intro u hu hul
    cases u with
    | literal w => simp [same, counted, Value.sameLiteral_iff_counted htl hul]
    | _ => simp [same, counted]
  | grouping e ih =>
    intro u hu hul
    cases u with
    | grouping f =>
      have hf : f.OperatorsKnown := hu
      simpa [same, counted] using ih ht htl hf hul
    | _ => simp [same, counted]
  | unary op e ih =>
    intro u hu hul
    cases u with
    | unary op' f =>
      simp [same, counted, same_operator_iff ht.2.1 hu.2.1, ih ht.2.2 htl hu.2.2 hul]
    | _ => simp [same, counted]
  | binary l op r ihl ihr =>
    intro u hu hul
    cases u with
    | binary l' op' r' =>
      simp [same, counted, same_operator_iff ht.2.1 hu.2.1, ihl ht.2.2.1 htl.1 hu.2.2.1 hul.1,
        ihr ht.2.2.2 htl.2 hu.2.2.2 hul.2, and_assoc]
    | _ => simp [same, counted]
  | conditional c t e ihc iht ihe =>
    intro u hu hul
    cases u with
    | conditional c' t' e' =>
      simp [same, counted, ihc ht.1 htl.1 hu.1 hul.1, iht ht.2.1 htl.2.1 hu.2.1 hul.2.1,
        ihe ht.2.2 htl.2.2 hu.2.2 hul.2.2, and_assoc]
    | _ => simp [same, counted]
  | absent | bare _ => exact ht.elim

theorem TypesAgree.operand {t u e f : Expr} {i : Nat} (h : t.TypesAgree u)
    (ht : t.operand? i = some e) (hu : u.operand? i = some f) : e.TypesAgree f := by
  intro p v w hv hw
  exact h (i :: p) v w (by rw [at?_cons ht, hv]) (by rw [at?_cons hu, hw])

/-- **Only a boolean in the place of a number is missed.** -/
theorem eq_of_counted {t : Expr} : ∀ {u : Expr}, t.TypesAgree u → t.counted = u.counted →
    t = u := by
  induction t with
  | literal v =>
    intro u htypes h
    cases u with
    | literal w =>
      rw [Value.eq_of_counted (htypes [] v w rfl rfl) (Expr.literal.inj h)]
    | _ => cases h
  | grouping e ih =>
    intro u htypes h
    cases u with
    | grouping f => rw [ih (htypes.operand (i := 0) rfl rfl) (Expr.grouping.inj h)]
    | _ => cases h
  | unary op e ih =>
    intro u htypes h
    cases u with
    | unary op' f =>
      obtain ⟨rfl, hoperand⟩ := Expr.unary.inj h
      rw [ih (htypes.operand (i := 0) rfl rfl) hoperand]
    | _ => cases h
  | binary l op r ihl ihr =>
    intro u htypes h
    cases u with
    | binary l' op' r' =>
      obtain ⟨hl, rfl, hr⟩ := Expr.binary.inj h
      rw [ihl (htypes.operand (i := 0) rfl rfl) hl, ihr (htypes.operand (i := 1) rfl rfl) hr]
    | _ => cases h
  | conditional c t e ihc iht ihe =>
    intro u htypes h
    cases u with
    | conditional c' t' e' =>
      obtain ⟨hc, ht, he⟩ := Expr.conditional.inj h
      rw [ihc (htypes.operand (i := 0) rfl rfl) hc, iht (htypes.operand (i := 1) rfl rfl) ht,
        ihe (htypes.operand (i := 2) rfl rfl) he]
    | _ => cases h
  | absent | bare _ =>
    intro u htypes h
    cases u with
    | _ => first | exact h | cases h

theorem operand?_unlined (e : Expr) (i : Nat) :
    e.unlined.operand? i = (e.operand? i).map unlined := by
  cases e <;> rcases i with _ | _ | _ | i <;> rfl

theorem at?_unlined (p : Position) : ∀ e : Expr, e.unlined.at? p = (e.at? p).map unlined := by
  induction p with
  | nil => exact fun e => rfl
  | cons i p ih =>
    intro e
    rw [at?, at?, operand?_unlined]
    cases e.operand? i with
    | none => rfl
    | some f => exact ih f

theorem typesAgree_of_unlined {t u : Expr} (h : t.unlined = u.unlined) : t.TypesAgree u := by
  intro p v w hv hw
  have hat := at?_unlined p t
  rw [h, at?_unlined, hv, hw] at hat
  have hliteral : (literal w).unlined = (literal v).unlined := Option.some.inj hat
  rw [Expr.literal.inj hliteral]

/-- **Trees that are printed alike have literals of the same types.** -/
theorem typesAgree_of_prefixForm {t u : Expr} (ht : t.Writable) (hu : u.Writable)
    {a b : Allowance Layer} {text : String} (htext : t.prefixForm a = .ok text)
    (hutext : u.prefixForm b = .ok text) : t.TypesAgree u := by
  have heq : t.prefixText ++ [] = u.prefixText ++ [] := by
    rw [← eq_prefixText_of_prefixForm ht htext, ← eq_prefixText_of_prefixForm hu hutext]
  have hnil : Separated [] := trivial
  exact typesAgree_of_unlined (delimited t ht hu hnil hnil heq).1

/-- **What the comparison of trees sees, and when equal trees mean the same.**  Trees of sources
are equal exactly if they are the same tree with a number for every boolean.  Equal trees are
printed alike and end alike if no literal is a boolean in one of them only, and otherwise no
prefix form of the one is a prefix form of the other. -/
theorem same_alike {limits : Limits} {s s' : Source} {t u : Expr}
    (ht : (Scan.ofSource s).tree? limits = some t)
    (hu : (Scan.ofSource s').tree? limits = some u) :
    (t.same u = true ↔ t.counted = u.counted) ∧
      (t.same u = true → (t.TypesAgree u → t.Alike u) ∧
        ∀ a b text, t.prefixForm a = .ok text → u.prefixForm b = .ok text → t.TypesAgree u) := by
  have htw := Scan.writable_of_tree? ht
  have huw := Scan.writable_of_tree? hu
  have hsame : t.same u = true ↔ t.counted = u.counted :=
    same_iff_counted htw.1 (Scan.readable_of_tree? ht) huw.1 (Scan.readable_of_tree? hu)
  refine ⟨hsame, fun h => ⟨fun htypes => ?_, fun a b text htext hutext => ?_⟩⟩
  · obtain rfl := eq_of_counted htypes (hsame.mp h)
    exact ⟨fun _ => rfl, fun _ => rfl, fun _ _ => rfl⟩
  · exact typesAgree_of_prefixForm htw huw htext hutext

def choice : Expr :=
  .conditional (.literal .nil)
    (.binary (.unary (.operator .minus 1) (.literal (.number .one))) (.operator .plus 1)
      (.literal (.number .one)))
    (.unary (.operator .bang 1) (.literal (.bool true)))

/-- Two sources that differ in blanks and a comment have equal trees, which mean the same. -/
theorem same_alike_choice :
    (Scan.ofSource (.text "nil?-1+1:!true")).tree? .standard = some choice ∧
      (Scan.ofSource (.text "nil ? -1 + 1 : !true // no")).tree? .standard = some choice ∧
      choice.same choice = true ∧ choice.Alike choice := by
  have hdense : (Scan.ofSource (.text "nil?-1+1:!true")).tree? .standard = some choice := by
    decide +kernel
  have hspaced : (Scan.ofSource (.text "nil ? -1 + 1 : !true // no")).tree? .standard =
      some choice := by
    decide +kernel
  obtain ⟨hsame, hmeans⟩ := same_alike hdense hspaced
  have hequal : choice.same choice = true := hsame.mpr rfl
  refine ⟨hdense, hspaced, hequal, (hmeans hequal).1 fun p v w hv hw => ?_⟩
  rw [hv] at hw
  rw [Expr.literal.inj (Option.some.inj hw)]

/-! ### One and true -/

theorem ofSource_one : Scan.ofSource (.text "1") =
    ⟨[⟨.number, "1", .number (Segment.numberValue ['1'] []), 1⟩], [], 1⟩ := by
  have hnumber : segments ['1'] = [.number ['1'] []] := Segment.segments_single rfl
  show Scan.ofSegments 1 (segments ['1']) = _
  rw [hnumber]
  rfl

theorem tree?_one :
    (Scan.ofSource (.text "1")).tree? .standard = some (.literal (.number .one)) := by
  have hvalue : Segment.numberValue ['1'] [] = .one := by decide +kernel
  rw [ofSource_one, hvalue, Scan.tree?_eq_read (by decide)]
  rfl

theorem ofSource_true : Scan.ofSource (.text "true") = ⟨[.operator .trueWord 1], [], 1⟩ := by
  have hword : segments ('t' :: (['r', 'u', 'e'] ++ [])) =
      .word ['t', 'r', 'u', 'e'] :: segments [] :=
    segments_word rfl rfl (List.all_eq_true.mp rfl) trivial
  show Scan.ofSegments 1 (segments ('t' :: (['r', 'u', 'e'] ++ []))) = _
  rw [hword, segments]
  rfl

theorem literalText_one : (Value.number .one).literalText = .ok "1" := by
  have hshortest : Number.shortest 0x3FF0000000000000 = ⟨1, 0⟩ := by decide +kernel
  have hwrite : Number.one.write .literal = (Number.shortest 0x3FF0000000000000).positional ++ [] :=
    rfl
  rw [Value.literalText, hwrite, hshortest]
  rfl

/-- **Equal trees that do not mean the same**: `1` and `true` are read without an error and have
equal trees, but these are printed differently and evaluate to values of different types. -/
theorem same_one_true :
    (Scan.ofSource (.text "1")).errors = [] ∧ (Scan.ofSource (.text "true")).errors = [] ∧
      ∃ t u, (Scan.ofSource (.text "1")).tree? .standard = some t ∧
        (Scan.ofSource (.text "true")).tree? .standard = some u ∧ t.same u = true ∧
        t.prefixForm Limits.standard.prefixPrinting = .ok "1" ∧
        u.prefixForm Limits.standard.prefixPrinting = .ok "true" ∧
        t.infixForm Limits.standard.infixPrinting = .ok "1" ∧
        u.infixForm Limits.standard.infixPrinting = .ok "true" ∧
        ∀ places, t.evaluate Limits.standard.evaluating places = .ok (.number .one) ∧
          u.evaluate Limits.standard.evaluating places = .ok (.bool true) := by
  have hone := tree?_one
  have htrue : (Scan.ofSource (.text "true")).tree? .standard = some (.literal (.bool true)) := by
    rw [ofSource_true, Scan.tree?_eq_read (by decide)]
    rfl
  have hsame : (literal (.number .one)).same (.literal (.bool true)) = true := by decide +kernel
  have hprefix : (literal (.number .one)).prefixForm Limits.standard.prefixPrinting = .ok "1" := by
    rw [prefixForm, literalText_one]
    rfl
  have hinfix : (literal (.number .one)).infixForm Limits.standard.infixPrinting = .ok "1" := by
    show ofFault (Value.number .one).literalText = _
    rw [literalText_one]
    rfl
  exact ⟨by rw [ofSource_one], by rw [ofSource_true], _, _, hone, htrue, hsame, hprefix, rfl,
    hinfix, rfl, fun _ => ⟨rfl, rfl⟩⟩

end Expr

end LoxCalc
