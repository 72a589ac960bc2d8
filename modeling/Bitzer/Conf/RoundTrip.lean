import Bitzer.Conf.Meaning
import Bitzer.Conf.Words

/-!
# A configuration read back

Tasks written as text, one option a line, and what the scanner, the grammar and
the actions make of the text: line by line the tokens, the derivation with its
actions, and the tasks.
-/

namespace Bitzer

open Lib Lib.Regex

/-- A task as it is written. -/
structure TaskConf where
  name : Str
  path : Str
  args : List Str
  dir : Option Str
  env : List Str

/-- A word of the `args` option. -/
def IsArg (w : Str) : Prop :=
  w ∈ Pattern.number.lang ∨ w ∈ Pattern.alnumWord.lang ∨ w ∈ Pattern.argKey.lang ∨
    (w ∈ Pattern.alphaWord.lang ∧ isKeyword w = false)

instance (w : Str) : Decidable (IsArg w) := inferInstanceAs (Decidable (_ ∨ _))

/-- The values can be written as tokens of their kind. -/
structure TaskConf.Valid (t : TaskConf) : Prop where
  name : t.name ∈ Pattern.alphaWord.lang ∧ isKeyword t.name = false
  path : t.path ∈ Pattern.path.lang
  args : ∀ w ∈ t.args, IsArg w
  dir : ∀ d ∈ t.dir, d ∈ Pattern.path.lang
  env : ∀ e ∈ t.env, e ∈ Pattern.envar.lang
  noNul : ∀ v ∈ t.name :: t.path :: (t.args ++ t.dir.toList ++ t.env), 0 ∉ v

def TaskConf.options (t : TaskConf) : Options where
  name := some t.name
  path := some t.path
  dir := t.dir
  args := t.args
  env := t.env

/-- An option on a line of its own; `rest` is the text after it. -/
def renderOption (indent kw value rest : Str) : Str :=
  indent ++ (kw ++ 32 :: (value ++ 59 :: 10 :: rest))

/-- The words, each after a blank. -/
def renderWords : List Str → Str → Str
  | [], rest => rest
  | w :: ws, rest => 32 :: (w ++ renderWords ws rest)

def renderArgs (indent : Str) (ws : List Str) (rest : Str) : Str :=
  indent ++ (bytes ['a', 'r', 'g', 's'] ++ renderWords ws (59 :: 10 :: rest))

/-- The block of a task; its option lines are indented by `indent`. -/
def TaskConf.render (indent : Str) (t : TaskConf) (rest : Str) : Str :=
  bytes ['t', 'a', 's', 'k'] ++ 32 :: 123 :: 10 ::
    renderOption indent (bytes ['n', 'a', 'm', 'e']) t.name
      (renderOption indent (bytes ['p', 'a', 't', 'h']) t.path
        (renderArgs indent t.args
          (t.dir.toList.foldr (renderOption indent (bytes ['d', 'i', 'r']))
            (t.env.foldr (renderOption indent (bytes ['e', 'n', 'v'])) (125 :: 10 :: rest)))))

/-- One block after the other. -/
def renderTasks (indent : Str) (ts : List TaskConf) (rest : Str) : Str :=
  ts.foldr (TaskConf.render indent) rest

/-- The text of a configuration. -/
def render (indent : Str) (ts : List TaskConf) : Str := renderTasks indent ts []

/-! ## The tokens of a line -/

section
variable {bol : Bool} {indent kw v w s : Str} {t k : Token} {a b : UInt8}

/-- The word is the token where `b` follows it. -/
def Scans (b : UInt8) (v : Str) (t : Token) : Prop :=
  (∃ a u, v = a :: u ∧ oneOf [' ', '\t'] a = false) ∧
    ∀ bol s, tokensFrom bol (v ++ b :: s) = t :: tokensFrom (endsLine v) (b :: s)

theorem scans_alphaWord (hw : w ∈ Pattern.alphaWord.lang) (hk : isKeyword w = false) (h0 : 0 ∉ w)
    (hb : endsWord b = true) : Scans b w (.alphaWord w) := by
  refine ⟨?_, fun bol s => tokensFrom_alphaWord hw hk h0 hb⟩
  obtain ⟨a, u, rfl, ha, -⟩ := mem_lang_cons_cls.mp hw
  exact ⟨a, u, rfl, (alpha_rules ha).1⟩

theorem scans_path (hw : w ∈ Pattern.path.lang) (h0 : 0 ∉ w) : Scans 59 w (.path w) := by
  refine ⟨?_, fun bol s => tokensFrom_path hw h0⟩
  obtain ⟨a, u, rfl, ha, -⟩ := mem_lang_cons_cls.mp hw
  obtain rfl : a = '/'.toUInt8 := by simpa [oneOf, bytes] using ha
  exact ⟨_, u, rfl, by decide⟩

theorem scans_envar (hw : w ∈ Pattern.envar.lang) (h0 : 0 ∉ w) : Scans 59 w (.envar w) := by
  refine ⟨?_, fun bol s => tokensFrom_envar hw h0⟩
  obtain ⟨a, u, rfl, ha, -⟩ := mem_lang_cons_cls.mp hw
  exact ⟨a, u, rfl, (alpha_rules ha).1⟩

theorem scans_arg (hw : IsArg w) (h0 : 0 ∉ w) :
    ∃ t, t.innerArg = some w ∧ ∀ b, endsWord b = true → Scans b w t := by
  have hdigits : w ∈ Pattern.alnumWord.lang →
      ∃ t, t.innerArg = some w ∧ ∀ b, endsWord b = true → Scans b w t := by
    intro hw
    refine ⟨digitsToken w, ?_, fun b hb => ⟨?_, fun bol s => tokensFrom_alnumWord hw h0 hb⟩⟩
    · rw [digitsToken]
      split <;> rfl
    · obtain ⟨d, hd, v, -, rfl⟩ := mem_lang_seq.mp hw
      obtain ⟨a, x, rfl, ha, -⟩ := mem_lang_cons_cls.mp hd
      exact ⟨a, x ++ v, rfl, (digit_rules ha).1⟩
  rcases hw with hw | hw | hw | ⟨hw, hk⟩
  · exact hdigits (number_alnumWord hw)
  · exact hdigits hw
  · refine ⟨.argKey w, rfl, fun b hb => ⟨?_, fun bol s => tokensFrom_argKey hw h0 hb⟩⟩
    obtain ⟨a, u, rfl, ha, -⟩ := mem_lang_cons_cls.mp hw
    obtain rfl : a = '-'.toUInt8 := by simpa [oneOf, bytes] using ha
    exact ⟨_, u, rfl, by decide⟩
  · exact ⟨.alphaWord w, rfl, fun b hb => scans_alphaWord hw hk h0 hb⟩

/-- A word after blanks. -/
theorem tokensFrom_gap (hw : ∀ c ∈ w, oneOf [' ', '\t'] c = true) (h : Scans b v t) :
    tokensFrom bol (w ++ (v ++ b :: s)) = t :: tokensFrom (endsLine v) (b :: s) := by
  obtain ⟨⟨a, u, rfl, ha⟩, htok⟩ := h
  obtain ⟨bol', hb⟩ := tokensFrom_blanks bol (s := u ++ b :: s) hw ha
  exact hb.trans (htok bol' s)

theorem tokensFrom_spaced (h : Scans b v t) :
    tokensFrom bol (32 :: (v ++ b :: s)) = t :: tokensFrom (endsLine v) (b :: s) :=
  tokensFrom_gap (List.forall_mem_singleton.mpr (by decide)) h

theorem tokensFrom_endOption :
    tokensFrom bol (59 :: 10 :: s) = .semicolon :: tokensFrom true s := by
  rw [tokensFrom_punct (t := .semicolon) (by simp), tokensFrom_newline]

theorem tokensFrom_indent (hi : ∀ c ∈ indent, oneOf [' ', '\t'] c = true) (hk : (kw, k) ∈ keywords)
    (hb : endsWord b = true) :
    tokensFrom bol (indent ++ (kw ++ b :: s)) = k :: tokensFrom false (b :: s) := by
  obtain ⟨a, u, rfl, ha, -⟩ := mem_lang_cons_cls.mp (fixed_rules.1 (kw, k) hk)
  obtain ⟨bol', hbl⟩ := tokensFrom_blanks bol (s := u ++ b :: s) hi (alpha_rules ha).1
  exact hbl.trans (tokensFrom_keyword hk hb)

/-- The line of an option with one value. -/
theorem tokensFrom_option (hi : ∀ c ∈ indent, oneOf [' ', '\t'] c = true) (hk : (kw, k) ∈ keywords)
    (hv : Scans 59 v t) :
    tokensFrom bol (renderOption indent kw v s) = k :: t :: .semicolon :: tokensFrom true s := by
  rw [renderOption, tokensFrom_indent hi hk rfl, tokensFrom_spaced hv,
    tokensFrom_endOption]

end

/-! ## Words -/

/-- A word with the blanks before it. -/
structure SpacedWord where
  gap : Str
  word : Str
  gap_ne : gap ≠ []
  gap_blank : ∀ c ∈ gap, oneOf [' ', '\t'] c = true

/-- The words with their blanks, and `rest` after them. -/
def spacedWords (ws : List SpacedWord) (rest : Str) : Str :=
  ws.foldr (fun w rest => w.gap ++ (w.word ++ rest)) rest

theorem spacedWords_append {ws : List SpacedWord} {w : SpacedWord} {rest : Str} :
    spacedWords (ws ++ [w]) rest = spacedWords ws (w.gap ++ (w.word ++ rest)) := by
  rw [spacedWords, List.foldr_append]
  rfl

theorem SpacedWord.endsWord_gap (w : SpacedWord) : ∃ g u, w.gap = g :: u ∧ endsWord g = true := by
  obtain ⟨g, u, hgu⟩ := List.exists_cons_of_ne_nil w.gap_ne
  have hg := w.gap_blank g (hgu ▸ List.mem_cons_self)
  rw [oneOf, List.contains_iff_mem] at hg
  refine ⟨g, u, hgu, endsWord_iff.mpr ?_⟩
  exact (List.mem_pair.mp hg).imp_right Or.inl

/-- The tokens of such words, up to the byte after them. -/
theorem spacedWords_spec {ws : List SpacedWord} (h : ∀ w ∈ ws, IsArg w.word ∧ 0 ∉ w.word) :
    ∃ ts, Words ts (ws.map SpacedWord.word) ∧ ∀ bol b s, endsWord b = true → ∃ bol',
      tokensFrom bol (spacedWords ws (b :: s)) = ts ++ tokensFrom bol' (b :: s) := by
  induction ws using List.reverseRecOn with
  | nil => exact ⟨[], .nil, fun bol b s _ => ⟨bol, rfl⟩⟩
  | append_singleton ws w ih =>
      obtain ⟨ts, hts, htok⟩ := ih fun v hv => h v (List.mem_append_left _ hv)
      obtain ⟨hw, h0⟩ := h w (List.mem_append_right _ (List.mem_singleton.mpr rfl))
      obtain ⟨t, ht, hscan⟩ := scans_arg hw h0
      refine ⟨ts ++ [t], ?_, fun bol b s hb => ?_⟩
      · rw [List.map_append]
        exact .snoc hts (.plain ht)
      · obtain ⟨g, u, hgap, hg⟩ := w.endsWord_gap
        obtain ⟨bol', htok'⟩ := htok bol g (u ++ (w.word ++ b :: s)) hg
        rw [← List.cons_append, ← hgap] at htok'
        refine ⟨endsLine w.word, ?_⟩
        rw [spacedWords_append, htok', tokensFrom_gap w.gap_blank (hscan b hb), List.append_assoc]
        rfl

/-- A word after one blank. -/
def SpacedWord.single (w : Str) : SpacedWord where
  gap := [32]
  word := w
  gap_ne := by simp
  gap_blank := List.forall_mem_singleton.mpr (by decide)

theorem renderWords_eq {ws : List Str} {rest : Str} :
    renderWords ws rest = spacedWords (ws.map SpacedWord.single) rest := by
  induction ws with
  | nil => rfl
  | cons w ws ih =>
      rw [renderWords, ih]
      rfl

/-! ## From text to options -/

/-- The text is read by one derivation of `P`, which takes the options from `o`
to `o'`, whatever comes after it. -/
def Writes (P : List Token → Action → Prop) (text : Str → Str) (o o' : Options) : Prop :=
  ∃ ts f, P ts f ∧ f.Adds o o' ∧ ∀ rest, tokensFrom true (text rest) = ts ++ tokensFrom true rest

theorem Writes.nil {o : Options} : Writes TaskOpts id o o :=
  ⟨[], .skip, .nil, .skip, fun _ => rfl⟩

theorem Writes.snoc {text text' : Str → Str} {o o₁ o₂ : Options}
    (h : Writes TaskOpts text o o₁) (hline : Writes TaskOpt text' o₁ o₂) :
    Writes TaskOpts (text ∘ text') o o₂ := by
  obtain ⟨ts, f, hts, hf, htok⟩ := h
  obtain ⟨us, g, hus, hg, htok'⟩ := hline
  refine ⟨ts ++ us, f.seq g, .snoc hts hus, hf.seq hg, fun rest => ?_⟩
  rw [Function.comp_apply, htok, htok', List.append_assoc]

section
variable {indent : Str} {o : Options}

theorem writes_name {n : Str} (hi : ∀ c ∈ indent, oneOf [' ', '\t'] c = true)
    (h : n ∈ Pattern.alphaWord.lang ∧ isKeyword n = false) (h0 : 0 ∉ n) :
    Writes TaskOpt (renderOption indent (bytes ['n', 'a', 'm', 'e']) n) o
      { o with name := some n } := by
  refine ⟨_, _, .name (.alphaWord n), nameAction_adds n, fun rest => ?_⟩
  exact tokensFrom_option hi (by decide) (scans_alphaWord h.1 h.2 h0 rfl)

theorem writes_path {p : Str} (hi : ∀ c ∈ indent, oneOf [' ', '\t'] c = true)
    (h : p ∈ Pattern.path.lang) (h0 : 0 ∉ p) :
    Writes TaskOpt (renderOption indent (bytes ['p', 'a', 't', 'h']) p) o
      { o with path := some p } := by
  refine ⟨_, _, .path p, pathAction_adds p, fun rest => ?_⟩
  exact tokensFrom_option hi (by decide) (scans_path h h0)

theorem writes_dir {d : Str} (hi : ∀ c ∈ indent, oneOf [' ', '\t'] c = true)
    (h : d ∈ Pattern.path.lang) (h0 : 0 ∉ d) :
    Writes TaskOpt (renderOption indent (bytes ['d', 'i', 'r']) d) o { o with dir := some d } := by
  refine ⟨_, _, .dir d, dirAction_adds d, fun rest => ?_⟩
  exact tokensFrom_option hi (by decide) (scans_path h h0)

theorem writes_env {e : Str} (hi : ∀ c ∈ indent, oneOf [' ', '\t'] c = true)
    (h : e ∈ Pattern.envar.lang) (h0 : 0 ∉ e) :
    Writes TaskOpt (renderOption indent (bytes ['e', 'n', 'v']) e) o
      { o with env := o.env ++ [e] } := by
  refine ⟨_, _, .env e, envAction_adds e, fun rest => ?_⟩
  exact tokensFrom_option hi (by decide) (scans_envar h h0)

/-- The words of an `args` line, up to the byte after them. -/
theorem words_spec {ws : List Str} (h : ∀ w ∈ ws, IsArg w ∧ 0 ∉ w) :
    ∃ ts f, ArgsList ts f ∧ f.Adds o { o with args := o.args ++ ws } ∧
      ∀ bol b s, endsWord b = true → ∃ bol',
        tokensFrom bol (renderWords ws (b :: s)) = ts ++ tokensFrom bol' (b :: s) := by
  have hws : ∀ v ∈ ws.map SpacedWord.single, IsArg v.word ∧ 0 ∉ v.word :=
    List.forall_mem_map.mpr h
  have hmap : (ws.map SpacedWord.single).map SpacedWord.word = ws := by
    rw [List.map_map]
    exact List.map_id ws
  obtain ⟨ts, hts, htok⟩ := spacedWords_spec hws
  rw [hmap] at hts
  simp only [renderWords_eq]
  exact ⟨ts, _, argsList_iff.mpr ⟨ws, hts, rfl⟩, argsAction_adds, htok⟩

theorem writes_args {ws : List Str} (hi : ∀ c ∈ indent, oneOf [' ', '\t'] c = true)
    (h : ∀ w ∈ ws, IsArg w ∧ 0 ∉ w) :
    Writes TaskOpt (renderArgs indent ws) o { o with args := o.args ++ ws } := by
  obtain ⟨ts, f, hts, hf, htok⟩ := words_spec (o := o) h
  refine ⟨_, f, .args hts, hf, fun rest => ?_⟩
  obtain ⟨b, s, hb, hs⟩ : ∃ b s,
      endsWord b = true ∧ renderWords ws (59 :: 10 :: rest) = b :: s := by
    cases ws with
    | nil => exact ⟨59, 10 :: rest, rfl, rfl⟩
    | cons w ws => exact ⟨32, _, rfl, rfl⟩
  obtain ⟨bol', hwords⟩ := htok false 59 (10 :: rest) rfl
  calc tokensFrom true (renderArgs indent ws rest)
      = .tokenArgs :: tokensFrom false (b :: s) := by
        rw [renderArgs, hs]
        exact tokensFrom_indent hi (by decide) hb
    _ = .tokenArgs :: (ts ++ tokensFrom bol' (59 :: 10 :: rest)) := by rw [← hs, hwords]
    _ = .tokenArgs :: ts ++ [.semicolon] ++ tokensFrom true rest := by
        rw [tokensFrom_endOption, List.append_assoc]
        rfl

end

/-! ## Blocks -/

section
variable {indent : Str}

/-- Lines of one kind, one for each value. -/
theorem Writes.foldr {kind : Str → Str → Str} {put : Options → Str → Options} {text : Str → Str}
    {o o' : Options} (h : Writes TaskOpts text o o') (vs : List Str)
    (hline : ∀ v ∈ vs, ∀ o, Writes TaskOpt (kind v) o (put o v)) :
    Writes TaskOpts (fun rest => text (vs.foldr kind rest)) o (vs.foldl put o') := by
  induction vs generalizing text o' with
  | nil => exact h
  | cons v vs ih =>
      have hv := h.snoc (hline v List.mem_cons_self o')
      exact ih hv fun u hu => hline u (List.mem_cons_of_mem _ hu)

theorem foldl_env {es : List Str} {o : Options} :
    es.foldl (fun o e => { o with env := o.env ++ [e] }) o = { o with env := o.env ++ es } := by
  induction es generalizing o with
  | nil => rw [List.append_nil, List.foldl_nil]
  | cons e es ih =>
      rw [List.foldl_cons, ih, List.append_assoc]
      rfl

/-- The option lines of a block. -/
theorem writes_options (hi : ∀ c ∈ indent, oneOf [' ', '\t'] c = true) {t : TaskConf}
    (h : t.Valid) :
    Writes TaskOpts (fun rest =>
      renderOption indent (bytes ['n', 'a', 'm', 'e']) t.name
        (renderOption indent (bytes ['p', 'a', 't', 'h']) t.path
          (renderArgs indent t.args
            (t.dir.toList.foldr (renderOption indent (bytes ['d', 'i', 'r']))
              (t.env.foldr (renderOption indent (bytes ['e', 'n', 'v'])) rest)))))
      {} t.options := by
  have h0 : ∀ v, v ∈ t.name :: t.path :: (t.args ++ t.dir.toList ++ t.env) → 0 ∉ v := h.noNul
  have hname := Writes.nil.snoc (writes_name (o := {}) hi h.name (h0 _ (by simp)))
  have hpath := hname.snoc (writes_path hi h.path (h0 _ (by simp)))
  have hargs := hpath.snoc (writes_args hi fun w hw => ⟨h.args w hw, h0 w (by simp [hw])⟩)
  have hdir := hargs.foldr t.dir.toList fun d hd o =>
    writes_dir hi (h.dir d (Option.mem_toList.mp hd)) (h0 d (by simp [Option.mem_toList.mp hd]))
  have henv := hdir.foldr t.env fun e he o => writes_env hi (h.env e he) (h0 e (by simp [he]))
  rw [foldl_env] at henv
  rw [TaskConf.options]
  cases hd : t.dir with
  | none =>
      simp only [hd] at henv
      exact henv
  | some d =>
      simp only [hd] at henv
      exact henv

/-- The block of a task is read as one block, which adds the task to the list. -/
theorem render_spec (hi : ∀ c ∈ indent, oneOf [' ', '\t'] c = true) {t : TaskConf}
    (h : t.Valid) :
    ∃ ts f, TaskBlock ts f ∧
      (∀ l, ∃ task, f ⟨l, none⟩ = some ⟨task :: l, none⟩ ∧ Yields task t.options) ∧
      ∀ rest, tokensFrom true (t.render indent rest) = ts ++ tokensFrom true rest := by
  obtain ⟨ts, f, hts, hf, htok⟩ := writes_options hi h
  have hc : ∀ l st', f ⟨l, none⟩ = some st' → st'.task.isSome = true := by
    intro l st' hst
    obtain ⟨st'', hf', -, hreads⟩ := hf ⟨l, none⟩ reads_init
    obtain rfl : st' = st'' := Option.some.inj (hst.symm.trans hf')
    exact hreads.isSome (by simp [TaskConf.options])
  refine ⟨_, _, .block hts, fun l => block_spec hf (hc l), fun rest => ?_⟩
  have hopen : ∀ s, tokensFrom true (bytes ['t', 'a', 's', 'k'] ++ 32 :: 123 :: 10 :: s) =
      .tokenTask :: .openBrace :: tokensFrom true s := by
    intro s
    obtain ⟨bol, hblank⟩ := tokensFrom_blanks false (w := [32]) (b := 123) (s := 10 :: s)
      (List.forall_mem_singleton.mpr (by decide)) (by decide)
    have hbrace : tokensFrom bol (123 :: 10 :: s) = .openBrace :: tokensFrom false (10 :: s) :=
      tokensFrom_punct (by simp)
    rw [tokensFrom_keyword (t := .tokenTask) (by decide) rfl]
    exact congrArg _ (hblank.trans (hbrace.trans (congrArg _ tokensFrom_newline)))
  have hclose : tokensFrom true (125 :: 10 :: rest) = .endBrace :: tokensFrom true rest := by
    rw [tokensFrom_punct (t := .endBrace) (by simp), tokensFrom_newline]
  rw [TaskConf.render, hopen, htok, hclose, List.append_assoc]
  rfl

/-- The blocks, one after the other. -/
theorem renderTasks_spec (hi : ∀ c ∈ indent, oneOf [' ', '\t'] c = true) {ts : List TaskConf}
    (h : ∀ t ∈ ts, t.Valid) :
    ∃ us f tasks, Tasks us f ∧ f ⟨[], none⟩ = some ⟨tasks, none⟩ ∧
      List.Forall₂ (fun task t => Yields task t.options) tasks ts.reverse ∧
      ∀ rest, tokensFrom true (renderTasks indent ts rest) = us ++ tokensFrom true rest := by
  induction ts using List.reverseRecOn with
  | nil => exact ⟨[], .skip, [], .nil, rfl, .nil, fun _ => rfl⟩
  | append_singleton ts t ih =>
      obtain ⟨us, f, tasks, hus, hf, hyields, htok⟩ := ih fun u hu =>
        h u (List.mem_append_left _ hu)
      obtain ⟨vs, g, hvs, hg, htok'⟩ :=
        render_spec hi (h t (List.mem_append_right _ (List.mem_singleton.mpr rfl)))
      obtain ⟨task, hgl, hy⟩ := hg tasks
      refine ⟨us ++ vs, f.seq g, task :: tasks, .snoc hus hvs, ?_, ?_, fun rest => ?_⟩
      · rw [Action.seq, hf]
        exact hgl
      · rw [List.reverse_concat]
        exact .cons hy hyields
      · rw [renderTasks, List.foldr_append, List.foldr_cons, List.foldr_nil, List.append_assoc,
          ← htok']
        exact htok _

end

/-- A configuration written as text is read back as it was: the tasks have the
options they were written with, the last one first. -/
theorem conf_round_trip {indent : Str} (hi : ∀ c ∈ indent, oneOf [' ', '\t'] c = true)
    (ts : List TaskConf) (h : ∀ t ∈ ts, t.Valid) :
    ∃ tasks, yyparse .tasks ⟨[], none⟩ (yylex (render indent ts)) = .accept ⟨tasks, none⟩ ∧
      List.Forall₂ (fun task t => Yields task t.options) tasks ts.reverse := by
  obtain ⟨us, f, tasks, hus, hf, hyields, htok⟩ := renderTasks_spec hi h
  have htokens : yylex (render indent ts) = us := by
    have := htok []
    rwa [show tokensFrom true [] = [] from rfl, List.append_nil] at this
  refine ⟨tasks, ?_, hyields⟩
  rw [htokens]
  exact parser_iff.mpr ⟨f, hus, hf⟩

/-- A task that sleeps. -/
def siesta : TaskConf where
  name := bytes ['s', 'i', 'e', 's', 't', 'a']
  path := bytes ['/', 'b', 'i', 'n', '/', 's', 'l', 'e', 'e', 'p']
  args := [bytes ['1', '0']]
  dir := some (bytes ['/', 't', 'm', 'p'])
  env := [bytes ['T', 'Z', '=', 'U', 'T', 'C']]

theorem conf_round_trip_siesta :
    ∃ tasks,
      yyparse .tasks ⟨[], none⟩
          (yylex (render (bytes [' ', ' ', ' ', ' ']) [siesta, { siesta with env := [] }])) =
        .accept ⟨tasks, none⟩ ∧
      List.Forall₂ (fun task t => Yields task t.options) tasks
        [{ siesta with env := [] }, siesta] :=
  have hvalid : siesta.Valid :=
    ⟨by decide +kernel, by decide +kernel, by decide +kernel, by decide +kernel, by decide +kernel,
      by decide +kernel⟩
  have hvalid' : { siesta with env := [] }.Valid :=
    ⟨hvalid.name, hvalid.path, hvalid.args, hvalid.dir, by decide, by decide +kernel⟩
  conf_round_trip (List.all_eq_true.mp (by decide)) [siesta, { siesta with env := [] }] (by
    intro t ht
    rcases List.mem_pair.mp ht with rfl | rfl
    · exact hvalid
    · exact hvalid')

end Bitzer
