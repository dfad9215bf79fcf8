import ScriptEngine.Proofs.Lexer.Accounting
import ScriptEngine.Proofs.Script.Compile
import ScriptEngine.Proofs.Tree.Listing

/-!
# The tokens of a compiled script

Nothing that a source says gets lost, doubled or moved when it is compiled (`compile_keeps_tokens`).
-/

namespace ScriptEngine

namespace Script

variable {file source : Text} {ts : List Token} {last : Token} {script : Script}

/-- The tokens of a source are in its file, one after the other. -/
theorem LexesTo.places (h : LexesTo file source ts last) :
    (∀ t ∈ ts, t.pos.file = file) ∧ last.pos.file = file ∧
      (ts.map Token.pos).Pairwise Pos.Before := by
  obtain ⟨⟨lx, hd⟩, hts, -⟩ := h
  obtain ⟨hf, hp⟩ := Lexer.delivers_places hd (Lexer.start_stands file source true)
  refine ⟨fun t ht => (hf t (by simp [ht])).1.1, (hf last (by simp)).1.1, List.pairwise_map.mpr ?_⟩
  refine (List.pairwise_append.mp hp).1.imp_of_mem fun ht hu hb => ?_
  exact hb (hts _ ht) (hts _ hu)

/-- Each token of a compiled source that is more than punctuation is a node of the tree, with the
same contents at the same place, and there are no other nodes but blocks. -/
theorem compile_keeps_tokens (h : compile file source = .ok script) :
    (∃ ts last, LexesTo file source ts last ∧ script.root.inorder.map Node.entry = entries ts) ∧
    script.root.inorder.Perm (script.root.toNode.preorder.filter Node.isListed) ∧
    (script.root.inorder.map Node.pos).Pairwise Pos.Before ∧
    ∀ n ∈ script.root.toNode.preorder, n.pos.file = file := by
  obtain ⟨root, file'⟩ := script
  obtain rfl : file' = file := file_of_compile h
  obtain ⟨ts, last, hl⟩ := exists_lexesTo h
  obtain ⟨D, rfl, rfl, -⟩ := compile_eq_ok h hl
  obtain ⟨hf, hlast, hp⟩ := hl.places
  have he : (D.tree last.pos).inorder.map Node.entry = entries D.tokens := by
    have h : entries (D.tokens ++ []) = _ := D.entries_tokens rfl
    simpa [D.inorder_tree last.pos] using h.symm
  have hpos : (D.tree last.pos).inorder.map Node.pos = (entries D.tokens).map Entry.pos := by
    rw [← he, List.map_map]
    exact List.map_congr_left fun n _ => n.pos_entry.symm
  refine ⟨⟨_, last, hl, he⟩, Block.inorder_perm _, ?_, ?_⟩
  · rw [hpos]
    exact hp.sublist (sublist_entries D.tokens)
  · exact D.allAt_tree (P := (·.file = file')) hf last.pos hlast [] (fun n hn => by cases hn)

theorem compile_keeps_tokens_branch :
    ∃ script ts last,
      compile (Text.ascii "f") (Text.ascii "if x>(1) then\n y=f('s',x)*2 endif") = .ok script ∧
      LexesTo (Text.ascii "f") (Text.ascii "if x>(1) then\n y=f('s',x)*2 endif") ts last ∧
      script.root.inorder.map Node.entry = entries ts ∧
      (script.root.inorder.map Node.pos).Pairwise Pos.Before ∧
      ∀ n ∈ script.root.toNode.preorder, n.pos.file = Text.ascii "f" := by
  have hok : (compile (Text.ascii "f")
      (Text.ascii "if x>(1) then\n y=f('s',x)*2 endif")).isOk = true := by decide +kernel
  cases hc : compile (Text.ascii "f") (Text.ascii "if x>(1) then\n y=f('s',x)*2 endif") with
  | error r =>
    rw [hc] at hok
    cases hok
  | ok script =>
    obtain ⟨⟨ts, last, hl, he⟩, -, hp, hf⟩ := compile_keeps_tokens hc
    exact ⟨script, ts, last, rfl, hl, he, hp, hf⟩

end Script

end ScriptEngine
