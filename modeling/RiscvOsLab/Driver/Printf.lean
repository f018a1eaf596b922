import RiscvOsLab.Driver.Console

/-!
# What printf prints

`directives` divides a format, from the left, into literal characters and conversions; `render` is the text of
the directives for given arguments. On every format that does not stop inside a `%l`, `printf` prints that text
and fetches one argument for each conversion (`printf_run`). After a `%l` at the end of the format the index is on
the terminator and the loop moves it on: the next round reads the byte after the format.
-/

namespace RiscvOsLab.Driver

/-- The conversions that print an argument. -/
inductive Conv where
  | d
  | x
  | p
  | s
  | c
  | ld
  | lu
  | lx
  deriving DecidableEq

inductive Directive where
  | literal (c : UInt8)
  | conv (k : Conv)
  | percent
  | unknown (text : List UInt8)
  /-- A `%` at the end. -/
  | lone
  /-- A `%l` at the end. -/
  | cut
  deriving DecidableEq

/-- A `%` with the character after it, other than `l`. -/
def directive (c : UInt8) : Directive :=
  if c = ch 'd' then .conv .d
  else if c = ch 'x' then .conv .x
  else if c = ch 'p' then .conv .p
  else if c = ch 's' then .conv .s
  else if c = ch 'c' then .conv .c
  else if c = ch '%' then .percent
  else .unknown [ch '%', c]

/-- A `%l` with the character after it. -/
def directiveLong (c : UInt8) : Directive :=
  if c = ch 'd' then .conv .ld
  else if c = ch 'u' then .conv .lu
  else if c = ch 'x' then .conv .lx
  else .unknown [ch '%', ch 'l', c]

def directives : List UInt8 → List Directive
  | [] => []
  | c :: r =>
      if c ≠ ch '%' then .literal c :: directives r
      else match r with
        | [] => [.lone]
        | e :: r =>
            if e ≠ ch 'l' then directive e :: directives r
            else match r with
              | [] => [.cut]
              | g :: r => directiveLong g :: directives r

/-- An argument of the type the conversion fetches. -/
def Conv.Takes : Conv → Arg → Prop
  | .d, .int _ | .x, .int _ | .c, .int _ => True
  | .p, .long _ | .ld, .long _ | .lu, .long _ | .lx, .long _ => True
  | .s, .str _ => True
  | _, _ => False

/-- The text of an argument. -/
def Conv.text : Conv → Arg → List UInt8
  | .d, .int v => alphabet.intText 10 v.toInt
  | .x, .int v => alphabet.intText 16 v.toUInt32.toNat
  | .c, .int v => [v.toUInt32.toUInt8]
  | .p, .long v => alphabet.intText 16 v.toNat
  | .ld, .long v => alphabet.intText 10 v.toInt64.toInt
  | .lu, .long v => alphabet.intText 10 v.toNat
  | .lx, .long v => alphabet.intText 16 v.toNat
  | .s, .str none => nullText
  | .s, .str (some t) => t.chars
  | _, _ => []

/-- One argument of the right type for each conversion, in order. -/
inductive Supplies : List Directive → List Arg → Prop
  | nil : Supplies [] []
  | conv {k : Conv} {a : Arg} {ds : List Directive} {as : List Arg} : k.Takes a → Supplies ds as →
      Supplies (.conv k :: ds) (a :: as)
  | other {d : Directive} {ds : List Directive} {as : List Arg} : (∀ k, d ≠ .conv k) → Supplies ds as →
      Supplies (d :: ds) as

/-- The text of a directive without an argument. -/
def Directive.text : Directive → List UInt8
  | .literal c => [c]
  | .conv _ => []
  | .percent => [ch '%']
  | .unknown t => t
  | .lone => []
  | .cut => [ch '%', ch 'l']

def render : List Directive → List Arg → List UInt8
  | [], _ => []
  | .conv k :: ds, a :: as => k.text a ++ render ds as
  | d :: ds, as => d.text ++ render ds as

/-! ## Arguments -/

theorem Supplies.conv_inv {k : Conv} {as : List Arg} (h : Supplies [.conv k] as) : ∃ a, as = [a] ∧ k.Takes a := by
  cases h with
  | conv ha hs =>
      cases hs
      exact ⟨_, rfl, ha⟩
  | other hd _ => exact absurd rfl (hd k)

theorem Supplies.other_inv {d : Directive} {as : List Arg} (hd : ∀ k, d ≠ .conv k) (h : Supplies [d] as) :
    as = [] := by
  cases h with
  | conv _ _ => exact absurd rfl (hd _)
  | other _ hs =>
      cases hs
      rfl

theorem render_other {d : Directive} {ds : List Directive} {as : List Arg} (hd : ∀ k, d ≠ .conv k) :
    render (d :: ds) as = d.text ++ render ds as := by
  cases d with
  | conv k => exact absurd rfl (hd k)
  | _ => rfl

theorem Supplies.split {d : Directive} {ds : List Directive} {as : List Arg} (h : Supplies (d :: ds) as) :
    ∃ as₁ as₂, as = as₁ ++ as₂ ∧ Supplies [d] as₁ ∧ Supplies ds as₂ ∧
      render (d :: ds) as = render [d] as₁ ++ render ds as₂ := by
  cases h with
  | @conv k a _ as ha hs =>
      refine ⟨[a], as, rfl, .conv ha .nil, hs, ?_⟩
      rw [render, render, render, List.append_nil]
  | other hd hs =>
      refine ⟨[], as, rfl, .other hd .nil, hs, ?_⟩
      rw [render_other hd, render_other hd, render, List.append_nil]

/-! ## Parts of a round -/

/-- The arguments that are left. -/
def Console.rest (c : Console) (as : List Arg) : Console := { c with args := as }

theorem vaInt_run {c : Console} {v : Int32} {as : List Arg} (h : c.args = .int v :: as) :
    vaInt.run c = .ok (v, c.rest as) := by
  obtain ⟨out, args⟩ := c
  subst h
  rfl

theorem vaLong_run {c : Console} {v : UInt64} {as : List Arg} (h : c.args = .long v :: as) :
    vaLong.run c = .ok (v, c.rest as) := by
  obtain ⟨out, args⟩ := c
  subst h
  rfl

theorem vaStr_run {c : Console} {v : Option CStr} {as : List Arg} (h : c.args = .str v :: as) :
    vaStr.run c = .ok (v, c.rest as) := by
  obtain ⟨out, args⟩ := c
  subst h
  rfl

theorem consputs_run : ∀ (t : List UInt8) (c : Console), (consputs t).run c = .ok ((), c.put t)
  | [], c => by
      rw [Console.put_nil]
      rfl
  | a :: t, c => by
      rw [consputs, run_seq (uartPutc_run a c), consputs_run t, Console.put_put]
      rfl

/-- `m` prints `d` and fetches the argument it takes. -/
def Prints (m : Uart Unit) (d : Directive) : Prop := ∀ (as rest : List Arg) (c : Console), Supplies [d] as →
  c.args = as ++ rest → m.run c = .ok ((), (c.put (render [d] as)).rest rest)

theorem prints_conv {m : Uart Unit} {k : Conv}
    (h : ∀ (a : Arg) (rest : List Arg) (c : Console), k.Takes a → c.args = a :: rest →
      m.run c = .ok ((), (c.put (k.text a)).rest rest)) : Prints m (.conv k) := by
  intro as rest c hs hargs
  obtain ⟨a, rfl, ha⟩ := hs.conv_inv
  rw [h a rest c ha hargs, render, render, List.append_nil]

theorem prints_other {m : Uart Unit} {d : Directive} (hd : ∀ k, d ≠ .conv k)
    (h : ∀ c : Console, m.run c = .ok ((), c.put d.text)) : Prints m d := by
  intro as rest c hs hargs
  obtain rfl := hs.other_inv hd
  rw [h c, render_other hd, render, List.append_nil, Console.rest, ← show (c.put d.text).args = rest from hargs]

theorem prints_vaInt {k : Conv} {f : Int32 → Uart Unit} (hlong : ∀ v, ¬ k.Takes (.long v))
    (hstr : ∀ t, ¬ k.Takes (.str t)) (hf : ∀ v c, (f v).run c = .ok ((), c.put (k.text (.int v)))) :
    Prints (vaInt >>= f) (.conv k) := by
  apply prints_conv
  intro a rest c ha hargs
  cases a with
  | int v =>
      rw [run_seq (vaInt_run hargs), hf]
      rfl
  | long v => exact absurd ha (hlong v)
  | str t => exact absurd ha (hstr t)

theorem prints_vaLong {k : Conv} {f : UInt64 → Uart Unit} (hint : ∀ v, ¬ k.Takes (.int v))
    (hstr : ∀ t, ¬ k.Takes (.str t)) (hf : ∀ v c, (f v).run c = .ok ((), c.put (k.text (.long v)))) :
    Prints (vaLong >>= f) (.conv k) := by
  apply prints_conv
  intro a rest c ha hargs
  cases a with
  | int v => exact absurd ha (hint v)
  | long v =>
      rw [run_seq (vaLong_run hargs), hf]
      rfl
  | str t => exact absurd ha (hstr t)

theorem prints_vaStr {k : Conv} {f : Option CStr → Uart Unit} (hint : ∀ v, ¬ k.Takes (.int v))
    (hlong : ∀ v, ¬ k.Takes (.long v)) (hf : ∀ t c, (f t).run c = .ok ((), c.put (k.text (.str t)))) :
    Prints (vaStr >>= f) (.conv k) := by
  apply prints_conv
  intro a rest c ha hargs
  cases a with
  | int v => exact absurd ha (hint v)
  | long v => exact absurd ha (hlong v)
  | str t =>
      rw [run_seq (vaStr_run hargs), hf]
      rfl

theorem convert_prints (e : UInt8) : Prints (convert e) (directive e) := by
  unfold convert directive
  split
  · exact prints_vaInt (fun _ => id) (fun _ => id) fun v c => printint_run (.inl rfl) v 1 c
  split
  · exact prints_vaInt (fun _ => id) (fun _ => id) fun v c => printint_run (.inr rfl) v 0 c
  split
  · exact prints_vaLong (fun _ => id) (fun _ => id) fun v c => printlong_run (.inr rfl) v.toInt64 0 c
  split
  · apply prints_vaStr (fun _ => id) (fun _ => id)
    intro t c
    cases t with
    | none => exact consputs_run nullText c
    | some t => exact consputs_run t.chars c
  split
  · exact prints_vaInt (fun _ => id) (fun _ => id) fun v c => rfl
  split
  · exact prints_other (by intro k h; cases h) fun c => rfl
  · apply prints_other (by intro k h; cases h)
    intro c
    rw [run_seq (uartPutc_run _ c), uartPutc_run, Console.put_put]
    rfl

theorem convertLong_prints {e : UInt8} (he : e ≠ 0) : Prints (convertLong e) (directiveLong e) := by
  unfold convertLong directiveLong
  split
  · exact prints_vaLong (fun _ => id) (fun _ => id) fun v c => printlong_run (.inl rfl) v.toInt64 1 c
  split
  · exact prints_vaLong (fun _ => id) (fun _ => id) fun v c => printlong_run (.inl rfl) v.toInt64 0 c
  split
  · exact prints_vaLong (fun _ => id) (fun _ => id) fun v c => printlong_run (.inr rfl) v.toInt64 0 c
  · apply prints_other (by intro k h; cases h)
    intro c
    rw [run_seq (uartPutc_run _ c), run_seq (uartPutc_run _ _), uartPutc_run, Console.put_put,
      Console.put_put]
    rfl

/-! ## The loop -/

theorem run_fault {α β : Type} {m : Uart α} {f : α → Uart β} {c : Console} {e : Fault} (h : m.run c = .error e) :
    (m >>= f).run c = .error e := by
  rw [StateT.run_bind, h]
  rfl

theorem read_cons {fmt : CStr} {i : Nat} {e : UInt8} {r : List UInt8} (h : fmt.chars.drop i = e :: r)
    (c : Console) :
    (fmt.read i).run c = .ok (e, c) ∧ fmt.chars.drop (i + 1) = r ∧ e ≠ 0 ∧ i + 1 ≤ fmt.chars.length := by
  have hi : i < fmt.chars.length := by
    by_contra hle
    rw [List.drop_eq_nil_of_le (Nat.not_lt.1 hle)] at h
    cases h
  rw [List.drop_eq_getElem_cons hi, List.cons.injEq] at h
  obtain ⟨rfl, rfl⟩ := h
  refine ⟨?_, rfl, fmt.noNul _ (List.getElem_mem hi), hi⟩
  rw [CStr.read, dif_pos hi]
  rfl

theorem read_nil {fmt : CStr} {i : Nat} (h : fmt.chars.drop i = []) (hi : i ≤ fmt.chars.length) (c : Console) :
    (fmt.read i).run c = .ok (0, c) ∧ i = fmt.chars.length := by
  have heq : i = fmt.chars.length := Nat.le_antisymm hi (List.drop_eq_nil_iff.1 h)
  refine ⟨?_, heq⟩
  rw [CStr.read, dif_neg (by omega), if_pos heq]
  rfl

theorem read_past (fmt : CStr) (c : Console) :
    (fmt.read (fmt.chars.length + 1)).run c = .error (.strRead (fmt.chars.length + 1)) := by
  rw [CStr.read, dif_neg (by omega), if_neg (by omega)]
  rfl

/-- The outcome of `printf` on the directives `ds`: all of the text, or a read past the terminator. -/
def outcome (fmt : CStr) (ds : List Directive) (as rest : List Arg) (c : Console) :
    Except Fault (Unit × Console) :=
  if .cut ∈ ds then .error (.strRead (fmt.chars.length + 1)) else .ok ((), (c.put (render ds as)).rest rest)

/-- A round that prints `d`, and the rounds after it. -/
theorem outcome_cons {fmt : CStr} {m k : Uart Unit} {d : Directive} {ds : List Directive} {as rest : List Arg}
    {c : Console} (hm : Prints m d) (hd : d ≠ .cut) (hs : Supplies (d :: ds) as) (hargs : c.args = as ++ rest)
    (hk : ∀ (as₂ : List Arg) (c₂ : Console), Supplies ds as₂ → c₂.args = as₂ ++ rest →
      k.run c₂ = outcome fmt ds as₂ rest c₂) :
    (m >>= fun _ => k).run c = outcome fmt (d :: ds) as rest c := by
  obtain ⟨as₁, as₂, rfl, hs₁, hs₂, hrender⟩ := hs.split
  rw [List.append_assoc] at hargs
  rw [run_seq (hm as₁ _ c hs₁ hargs), hk as₂ _ hs₂ rfl, outcome, outcome, hrender]
  simp only [List.mem_cons, hd.symm, false_or]
  split
  · rfl
  · rw [← Console.put_put]
    rfl

theorem outcome_nil {fmt : CStr} {as rest : List Arg} {c : Console} (hs : Supplies [] as)
    (hargs : c.args = as ++ rest) : outcome fmt [] as rest c = .ok ((), c) := by
  cases hs
  rw [outcome, if_neg (List.not_mem_nil), render, Console.put_nil, Console.rest,
    ← show c.args = rest from hargs]

theorem directive_ne_cut (e : UInt8) : directive e ≠ .cut := by
  unfold directive
  split_ifs
  all_goals exact nofun

theorem directiveLong_ne_cut (e : UInt8) : directiveLong e ≠ .cut := by
  unfold directiveLong
  split_ifs
  all_goals exact nofun

theorem convertLong_nul (c : Console) : (convertLong 0).run c = .ok ((), c.put [ch '%', ch 'l']) := by
  have h : convertLong 0 = uartPutc (ch '%') >>= fun _ => uartPutc (ch 'l') := rfl
  rw [h, run_seq (uartPutc_run _ c), uartPutc_run, Console.put_put]
  rfl

/-- By induction on what is left of the format, one case for each way a round ends. -/
theorem printfLoop_run {fmt : CStr} {rest : List Arg} (l : List UInt8) : ∀ {r i : Nat} {as : List Arg} {c : Console},
    fmt.chars.drop i = l → i ≤ fmt.chars.length → l.length + 1 < r → Supplies (directives l) as →
    c.args = as ++ rest → (printfLoop fmt r i).run c = outcome fmt (directives l) as rest c := by
  fun_induction directives l with
  | case1 =>
      intro r i as c hl hi hr hs hargs
      obtain ⟨r, rfl⟩ : ∃ n, r = n + 1 := ⟨r - 1, by omega⟩
      rw [printfLoop, run_seq (read_nil hl hi c).1, if_pos rfl, outcome_nil hs hargs]
      rfl
  | case2 e l he ih =>
      intro r i as c hl hi hr hs hargs
      obtain ⟨r, rfl⟩ : ∃ n, r = n + 1 := ⟨r - 1, by omega⟩
      obtain ⟨hread, hl', hne, hi'⟩ := read_cons hl c
      rw [printfLoop, run_seq hread, if_neg hne, if_pos he]
      rw [List.length_cons] at hr
      have hput : Prints (uartPutc e) (.literal e) := prints_other (by intro k h; cases h) fun c => rfl
      exact outcome_cons hput nofun hs hargs fun as₂ c₂ hs₂ hargs₂ => ih hl' hi' (by omega) hs₂ hargs₂
  | case3 e he =>
      intro r i as c hl hi hr hs hargs
      obtain ⟨r, rfl⟩ : ∃ n, r = n + 1 := ⟨r - 1, by omega⟩
      obtain ⟨hread, hl', hne, hi'⟩ := read_cons hl c
      obtain ⟨hread', -⟩ := read_nil hl' hi' c
      rw [printfLoop, run_seq hread, if_neg hne, if_neg he, run_seq hread', if_pos rfl]
      have hnone : Prints (pure ()) .lone :=
        prints_other (by intro k h; cases h) fun c => by rw [Directive.text, Console.put_nil]; rfl
      exact outcome_cons (k := pure ()) hnone nofun hs hargs fun as₂ c₂ hs₂ hargs₂ => (outcome_nil hs₂ hargs₂).symm
  | case4 e he g l hg ih =>
      intro r i as c hl hi hr hs hargs
      obtain ⟨r, rfl⟩ : ∃ n, r = n + 1 := ⟨r - 1, by omega⟩
      obtain ⟨hread, hl₁, hne, hi₁⟩ := read_cons hl c
      obtain ⟨hread₁, hl₂, hne₁, hi₂⟩ := read_cons hl₁ c
      rw [printfLoop, run_seq hread, if_neg hne, if_neg he, run_seq hread₁, if_neg hne₁, if_neg hg]
      rw [List.length_cons, List.length_cons] at hr
      exact outcome_cons (convert_prints g) (directive_ne_cut g) hs hargs fun as₂ c₂ hs₂ hargs₂ =>
        ih hl₂ hi₂ (by omega) hs₂ hargs₂
  | case5 e he g hg =>
      intro r i as c hl hi hr hs hargs
      -- the read at `i + 2` gives the terminator, and the loop goes on at `i + 3`
      obtain ⟨r, rfl⟩ : ∃ n, r = n + 2 := ⟨r - 2, by omega⟩
      obtain ⟨hread, hl₁, hne, hi₁⟩ := read_cons hl c
      obtain ⟨hread₁, hl₂, hne₁, hi₂⟩ := read_cons hl₁ c
      obtain ⟨hread₂, hend⟩ := read_nil hl₂ hi₂ c
      rw [printfLoop, run_seq hread, if_neg hne, if_neg he, run_seq hread₁, if_neg hne₁, if_pos (not_not.1 hg),
        run_seq hread₂, run_seq (convertLong_nul c), printfLoop, hend, run_fault (read_past fmt _), outcome,
        if_pos (List.mem_singleton.2 rfl)]
  | case6 e he g hg b l ih =>
      intro r i as c hl hi hr hs hargs
      obtain ⟨r, rfl⟩ : ∃ n, r = n + 1 := ⟨r - 1, by omega⟩
      obtain ⟨hread, hl₁, hne, hi₁⟩ := read_cons hl c
      obtain ⟨hread₁, hl₂, hne₁, hi₂⟩ := read_cons hl₁ c
      obtain ⟨hread₂, hl₃, hne₂, hi₃⟩ := read_cons hl₂ c
      rw [printfLoop, run_seq hread, if_neg hne, if_neg he, run_seq hread₁, if_neg hne₁, if_pos (not_not.1 hg),
        run_seq hread₂]
      rw [List.length_cons, List.length_cons, List.length_cons] at hr
      exact outcome_cons (convertLong_prints hne₂) (directiveLong_ne_cut b) hs hargs fun as₂ c₂ hs₂ hargs₂ =>
        ih hl₃ hi₃ (by omega) hs₂ hargs₂

theorem printf_run {fmt : CStr} {as rest : List Arg} {c : Console} (hs : Supplies (directives fmt.chars) as)
    (hargs : c.args = as ++ rest) :
    (printf (some fmt)).run c = outcome fmt (directives fmt.chars) as rest c :=
  printfLoop_run fmt.chars rfl (Nat.zero_le _) (Nat.lt_succ_self _) hs hargs

/-- `printf` prints the text of its format and fetches the arguments of its conversions, exactly when the format
does not stop inside a `%l`. -/
theorem printf_prints_iff {fmt : CStr} {as rest : List Arg} {out : List UInt8}
    (hs : Supplies (directives fmt.chars) as) :
    (printf (some fmt)).run ⟨out, as ++ rest⟩ = .ok ((), ⟨out ++ render (directives fmt.chars) as, rest⟩) ↔
      .cut ∉ directives fmt.chars := by
  rw [printf_run hs rfl, outcome]
  split
  · rename_i hcut
    exact ⟨nofun, fun h => absurd hcut h⟩
  · rename_i hcut
    exact ⟨fun _ => hcut, fun _ => rfl⟩

theorem noNul_of_all {l : List UInt8} (h : l.all (· != 0) = true) : ∀ c ∈ l, c ≠ 0 := by
  intro c hc
  simpa using List.all_eq_true.1 h c hc

/-- `printf("p%d%%%lx%q%", 7, 255)`. -/
def sample : CStr :=
  ⟨['p', '%', 'd', '%', '%', '%', 'l', 'x', '%', 'q', '%'].map ch, noNul_of_all (by decide)⟩

theorem printf_prints_sample :
    (printf (some sample)).run ⟨[], [.int 7, .long 255] ++ []⟩ =
      .ok ((), ⟨[] ++ render (directives sample.chars) [.int 7, .long 255], []⟩) := by
  have hs : Supplies (directives sample.chars) [.int 7, .long 255] :=
    .other nofun (.conv trivial (.other nofun (.conv trivial (.other nofun (.other nofun .nil)))))
  have hcut : Directive.cut ∉ directives sample.chars := by decide
  exact (printf_prints_iff hs).2 hcut

/-- `printf("%l")` reads the byte after its terminator. -/
theorem printf_prints_fails : ∃ fmt : CStr, fmt.chars = ['%', 'l'].map ch ∧ Supplies (directives fmt.chars) [] ∧
    (printf (some fmt)).run ⟨[], []⟩ = .error (.strRead (fmt.chars.length + 1)) := by
  refine ⟨⟨['%', 'l'].map ch, noNul_of_all (by decide)⟩, rfl, ?_, rfl⟩
  exact .other nofun .nil

end RiscvOsLab.Driver
