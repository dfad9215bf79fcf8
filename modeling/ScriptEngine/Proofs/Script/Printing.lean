import ScriptEngine.Proofs.Script.RoundTrip
import ScriptEngine.Proofs.Tree.Decoder

/-!
# S-expressions of scripts

Two scripts of one structure have one S-expression, and scripts of different structure have different
ones as long as no string of theirs holds a double quote (`sexpr_identifies`). Strings are written
between double quotes as they are, so one that holds the text between two strings is taken for the two
(`exists_same_sexpr`).
-/

namespace ScriptEngine

namespace Shape

mutual

/-- The strings of a tree. -/
@[simp] def strings : Shape → List Text
  | string s => [s]
  | number _ | var _ => []
  | binary _ l r | comparison _ l r => l.strings ++ r.strings
  | call _ args => stringsAll args
  | assign _ v => v.strings
  | block ss => stringsAll ss
  | ifThen c t | loop c t => c.strings ++ t.strings
  | ifElse c t e => c.strings ++ (t.strings ++ e.strings)

@[simp] def stringsAll : List Shape → List Text
  | [] => []
  | t :: ts => t.strings ++ stringsAll ts

end

/-- No string holds the quote that strings are written in. -/
def Quoteless (t : Shape) : Prop := ∀ s ∈ t.strings, Byte.doubleQuote ∉ s

end Shape

theorem Text.IsName.isWord {n : Text} (h : n.IsName) : n.IsWord := ⟨h.ne_nil, h.letters⟩

theorem Double.IsLiteral.isPlain {x : Double} (h : x.IsLiteral) : x.IsPlain := ⟨h.1, fun _ => h.2⟩

/-! ## Trees of scripts are plain -/

mutual

theorem Expr.WellFormed.isPlain {e : Expr} {p : Place} (h : e.WellFormed p)
    (hq : e.shape.Quoteless) : e.shape.IsPlain := by
  cases e with
  | number => exact Double.IsLiteral.isPlain h
  | string _ s => exact hq s (by simp)
  | var => exact Text.IsName.isWord h
  | binary _ op l r =>
    obtain ⟨hl, hr⟩ := List.forall_mem_append.mp hq
    exact ⟨by simpa using h.1, h.2.1.isPlain hl, h.2.2.isPlain hr⟩
  | comparison _ op l r =>
    obtain ⟨hl, hr⟩ := List.forall_mem_append.mp hq
    exact ⟨h.2.1, h.2.2.1.isPlain hl, h.2.2.2.isPlain hr⟩
  | call _ n args => exact ⟨h.1.isWord, h.2.allPlain hq⟩

theorem Expr.AllWellFormed.allPlain {es : List Expr} (h : Expr.AllWellFormed es)
    (hq : ∀ s ∈ Shape.stringsAll (Expr.shapes es), Byte.doubleQuote ∉ s) :
    Shape.AllPlain (Expr.shapes es) := by
  cases es with
  | nil => trivial
  | cons e es =>
    obtain ⟨he, hes⟩ := List.forall_mem_append.mp hq
    exact ⟨h.1.isPlain he, h.2.allPlain hes⟩

end

theorem Condition.WellFormed.isPlain {c : Condition} (h : c.WellFormed)
    (hq : c.toExpr.shape.Quoteless) : c.toExpr.shape.IsPlain := by
  obtain ⟨hl, hr⟩ := List.forall_mem_append.mp hq
  exact ⟨h.1, h.2.1.isPlain hl, h.2.2.isPlain hr⟩

mutual

theorem Stmt.WellFormed.isPlain {s : Stmt} (h : s.WellFormed) (hq : s.shape.Quoteless) :
    s.shape.IsPlain := by
  cases s with
  | expr e => exact h.2.isPlain hq
  | assign _ n v => exact ⟨h.1.isWord, h.2.isPlain hq⟩
  | block => cases h
  | ifThen _ c t | loop _ c t =>
    obtain ⟨hc, ht⟩ := List.forall_mem_append.mp hq
    exact ⟨h.1.isPlain hc, h.2.isPlain ht⟩
  | ifElse _ c t e =>
    obtain ⟨hc, hte⟩ := List.forall_mem_append.mp hq
    obtain ⟨ht, he⟩ := List.forall_mem_append.mp hte
    exact ⟨h.1.isPlain hc, h.2.1.isPlain ht, h.2.2.isPlain he⟩

theorem Block.WellFormed.isPlain {b : Block} (h : b.WellFormed) (hq : b.shape.Quoteless) :
    b.shape.IsPlain := by
  cases b with
  | mk _ ss => exact Stmt.AllWellFormed.allPlain h hq

theorem Stmt.AllWellFormed.allPlain {ss : List Stmt} (h : Stmt.AllWellFormed ss)
    (hq : ∀ s ∈ Shape.stringsAll (Stmt.shapes ss), Byte.doubleQuote ∉ s) :
    Shape.AllPlain (Stmt.shapes ss) := by
  cases ss with
  | nil => trivial
  | cons s ss =>
    obtain ⟨hs, hss⟩ := List.forall_mem_append.mp hq
    exact ⟨h.1.isPlain hs, h.2.allPlain hss⟩

end

/-! ## Same text, same tree -/

theorem Shape.text_injective {t u : Shape} (ht : t.IsPlain) (hu : u.IsPlain) (h : t.text = u.text) :
    t = u := by
  have hend : Text.Closes [] := nofun
  have hd := Shape.decode_text ht hend
  rw [h, Shape.decode_text hu hend] at hd
  cases hd
  rfl

theorem Block.sexpr_toNode (b : Block) : b.toNode.sexpr = b.shape.text := by
  rw [Node.sexpr_eq]
  rfl

namespace Script

variable {file file' source source' : Text} {script script' : Script}

/-- A program that calls a function with strings. -/
def callOf (n : Text) (ss : List Text) : Block :=
  .mk Pos.unset [.expr (.call Pos.unset n (ss.map (.string Pos.unset)))]

theorem compile_callOf {n : Text} (ss : List Text) (file : Text) (hn : n.IsName)
    (hs : ∀ s ∈ ss, s.IsQuotable) (hd : (callOf n ss).rendering.depth ≤ Parser.nestingLimit) :
    ∃ root, compile file (callOf n ss).render = .ok ⟨root, file⟩ ∧
      root.shape = .block [.call n (ss.map .string)] := by
  have hargs : Expr.AllWellFormed (ss.map (.string Pos.unset)) ∧
      Expr.shapes (ss.map (.string Pos.unset)) = ss.map .string := by
    clear hd
    induction ss with
    | nil => simp
    | cons s ss ih =>
      rw [List.forall_mem_cons] at hs
      simpa [hs.1] using ih hs.2
  obtain ⟨root, hc, he⟩ := compile_render_of_wellFormed (t := callOf n ss) file
    ⟨⟨rfl, hn, hargs.1⟩, trivial⟩ hd
  exact ⟨root, hc, (Block.shape_eq_iff.mpr he).trans (by simp [callOf, hargs.2])⟩

/-- Structure decides the S-expression, and the S-expression the structure where no string holds the
quote it is written in. -/
theorem sexpr_identifies (h : compile file source = .ok script)
    (h' : compile file' source' = .ok script') :
    (script.root.erase = script'.root.erase → script.root.toNode.sexpr = script'.root.toNode.sexpr) ∧
    (script.root.shape.Quoteless → script'.root.shape.Quoteless →
      (script.root.toNode.sexpr = script'.root.toNode.sexpr ↔
        script.root.erase = script'.root.erase)) := by
  obtain ⟨root, f⟩ := script
  obtain ⟨root', f'⟩ := script'
  obtain rfl : f = file := file_of_compile h
  obtain rfl : f' = file' := file_of_compile h'
  rw [Block.sexpr_toNode, Block.sexpr_toNode, ← Block.shape_eq_iff]
  refine ⟨congrArg Shape.text, fun hq hq' => ⟨fun ht => ?_, congrArg Shape.text⟩⟩
  have hp := (wellFormed_of_compile h).isPlain hq
  have hp' := (wellFormed_of_compile h').isPlain hq'
  exact Shape.text_injective hp hp' ht

theorem sexpr_identifies_strings :
    ∃ script script', compile [] (Text.ascii "f(\"a\",\"b\")") = .ok script ∧
      compile [] (Text.ascii "f(\"a b\")") = .ok script' ∧
      script.root.toNode.sexpr ≠ script'.root.toNode.sexpr := by
  have hn : (Text.ascii "f").IsName := ⟨by decide, by decide +kernel, by decide +kernel⟩
  obtain ⟨root, hc, ht⟩ := compile_callOf [Text.ascii "a", Text.ascii "b"] [] hn
    (by simp [Text.IsQuotable]; decide) (by decide)
  obtain ⟨root', hc', ht'⟩ := compile_callOf [Text.ascii "a b"] [] hn
    (by simp [Text.IsQuotable]; decide) (by decide)
  refine ⟨_, _, hc, hc', fun h => ?_⟩
  have hq : root.shape.Quoteless := by
    rw [ht, Shape.Quoteless]
    decide
  have hq' : root'.shape.Quoteless := by
    rw [ht', Shape.Quoteless]
    decide
  have he := ((sexpr_identifies hc hc').2 hq hq').mp h
  rw [← Block.shape_eq_iff, ht, ht'] at he
  cases he

/-! ## Different trees of the same text -/

/-- A string may hold all that stands between the contents of two. -/
theorem exists_same_sexpr {n u v : Text} (file : Text) (hn : n.IsName)
    (hu : Byte.doubleQuote ∉ u ∧ Byte.singleQuote ∉ u)
    (hv : Byte.doubleQuote ∉ v ∧ Byte.singleQuote ∉ v) :
    ∃ root root', compile file (callOf n [u ++ Text.ascii "\" \"" ++ v]).render = .ok ⟨root, file⟩ ∧
      compile file (callOf n [u, v]).render = .ok ⟨root', file⟩ ∧
      root.toNode.sexpr = root'.toNode.sexpr ∧ root.erase ≠ root'.erase := by
  have hjoin : Byte.singleQuote ∉ u ++ Text.ascii "\" \"" ++ v := by
    simp [hu.2, hv.2]
    decide
  obtain ⟨root, hc, ht⟩ := compile_callOf [u ++ Text.ascii "\" \"" ++ v] file hn
    (List.forall_mem_singleton.mpr (.inr hjoin)) (Nat.le_of_ble_eq_true rfl)
  obtain ⟨root', hc', ht'⟩ := compile_callOf [u, v] file hn
    (by simp [Text.IsQuotable, hu, hv]) (Nat.le_of_ble_eq_true rfl)
  refine ⟨root, root', hc, hc', ?_, ?_⟩
  · rw [Block.sexpr_toNode, Block.sexpr_toNode, ht, ht']
    have hmid : Text.ascii "\" \"" = [Byte.doubleQuote, Byte.space, Byte.doubleQuote] := rfl
    simp [Shape.form, hmid]
  · rw [ne_eq, ← Block.shape_eq_iff, ht, ht']
    simp

theorem sexpr_collision :
    ∃ script script', compile [] (Text.ascii "f('a\" \"b')") = .ok script ∧
      compile [] (Text.ascii "f(\"a\",\"b\")") = .ok script' ∧
      script.root.toNode.sexpr = script'.root.toNode.sexpr ∧
      script.root.erase ≠ script'.root.erase := by
  have hn : (Text.ascii "f").IsName := ⟨by decide, by decide +kernel, by decide +kernel⟩
  obtain ⟨root, root', hc, hc', h⟩ := exists_same_sexpr (u := [97]) (v := [98]) [] hn
    (by decide) (by decide)
  exact ⟨_, _, hc, hc', h⟩

end Script

end ScriptEngine
