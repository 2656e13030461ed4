import NemesisBot.Cluster.Mandate

/-! What the mandate gate accepts: the canonical form is unambiguous, and what is signed
reads back. -/
namespace NemesisBot.Mandate
open Strings
open Trust (MandateKeyVerdict)

/-! The canonical form. -/

theorem canonicalText_eq (body : MandateBody) : canonicalText body =
    "\x7b\"v\":".toList ++ (Nat.toDigits 10 body.v.toNat ++
    (",\"task_id\":".toList ++ (quoted body.taskId ++
    (",\"tool_allowlist\":".toList ++ ((allowlistJson body.toolAllowlist).render ++
    (",\"time_window\":\x7b\"not_before\":".toList ++
      (Nat.toDigits 10 body.timeWindow.notBefore.toNat ++
    (",\"expires_at\":".toList ++ (Nat.toDigits 10 body.timeWindow.expiresAt.toNat ++
    ("\x7d,\"budget\":\x7b\"max_tokens\":".toList ++
      (Nat.toDigits 10 body.budget.maxTokens.toNat ++
    (",\"max_tool_calls\":".toList ++ (Nat.toDigits 10 body.budget.maxToolCalls.toNat ++
    ("\x7d,\"signed_at\":".toList ++ (Nat.toDigits 10 body.signedAt.toNat ++
    ("\x7d".toList ++ [])))))))))))))))) := by
  simp [canonicalText, bodyFields, Json.render, renderFields, join, u64Json, Json.nat, quoted,
    escapeChar]

theorem allowlistJson_inj {x y : Option (List Text)} {r r' : Text}
    (h : (allowlistJson x).render ++ r = (allowlistJson y).render ++ r') : x = y ∧ r = r' := by
  have hsome (tools : List Text) : (allowlistJson (some tools)).render =
      '[' :: join [','] (tools.map quoted) ++ [']'] := by
    rw [allowlistJson, Json.render, renderItems_str]
  have hnone : (allowlistJson none).render = "null".toList := rfl
  cases x with
  | none =>
    cases y with
    | none => exact ⟨rfl, List.append_cancel_left h⟩
    | some tools =>
      rw [hnone, hsome] at h
      cases h
  | some tools =>
    cases y with
    | none =>
      rw [hnone, hsome] at h
      cases h
    | some tools' =>
      rw [hsome, hsome, List.cons_append, List.cons_append, List.cons_append,
        List.cons_append, List.append_assoc, List.append_assoc] at h
      obtain ⟨rfl, hr⟩ := strings_inj (List.cons.inj h).2
      exact ⟨rfl, hr⟩

theorem canonicalText_inj {a b : MandateBody} (h : canonicalText a = canonicalText b) : a = b := by
  rw [canonicalText_eq, canonicalText_eq] at h
  obtain ⟨hv, h⟩ := digits_sep_inj rfl (List.append_cancel_left h)
  obtain ⟨htask, h⟩ := quoted_inj h
  obtain ⟨htools, h⟩ := allowlistJson_inj (List.append_cancel_left h)
  obtain ⟨hfrom, h⟩ := digits_sep_inj rfl (List.append_cancel_left h)
  obtain ⟨huntil, h⟩ := digits_sep_inj rfl h
  obtain ⟨htokens, h⟩ := digits_sep_inj rfl h
  obtain ⟨hcalls, h⟩ := digits_sep_inj rfl h
  obtain ⟨hsigned, -⟩ := digits_sep_inj rfl h
  obtain ⟨_, _, _, ⟨_, _⟩, ⟨_, _⟩, _⟩ := a
  obtain ⟨_, _, _, ⟨_, _⟩, ⟨_, _⟩, _⟩ := b
  simp only [MandateBody.mk.injEq, MandateTimeWindow.mk.injEq, MandateBudget.mk.injEq]
  exact ⟨UInt32.toNat_inj.mp hv, htask, htools,
    ⟨UInt64.toNat_inj.mp hfrom, UInt64.toNat_inj.mp huntil⟩,
    ⟨UInt64.toNat_inj.mp htokens, UInt64.toNat_inj.mp hcalls⟩, UInt64.toNat_inj.mp hsigned⟩

theorem canonicalBytes_inj {a b : MandateBody} (h : canonicalBytes a = canonicalBytes b) :
    a = b := by
  have htext := congrArg String.toList (String.toByteArray_inj.mp h)
  rw [String.toList_ofList, String.toList_ofList] at htext
  exact canonicalText_inj htext

/-! Hexadecimal text. -/

theorem hexDigitValue_hexDigit : ∀ n < 16, hexDigitValue (hexDigit n) = some n := by decide

theorem isWhitespace_hexDigit : ∀ n < 16, isWhitespace (hexDigit n) = false := by decide

theorem hexDecode_hexEncode (bytes : List UInt8) : hexDecode (hexEncode bytes) = some bytes := by
  induction bytes with
  | nil => rfl
  | cons b bytes ih =>
    have hb := b.toNat_lt
    have hhigh := hexDigitValue_hexDigit (b.toNat / 16) (by omega)
    have hlow := hexDigitValue_hexDigit (b.toNat % 16) (by omega)
    have hsum : b.toNat / 16 * 16 + b.toNat % 16 = b.toNat := by omega
    rw [hexEncode, List.flatMap_cons, ← hexEncode, List.cons_append, List.cons_append,
      List.nil_append, hexDecode, hhigh, hlow, ih]
    change some (UInt8.ofNat (b.toNat / 16 * 16 + b.toNat % 16) :: bytes) = _
    rw [hsum, UInt8.ofNat_toNat]

theorem trim_of_no_whitespace {s : Text} (h : ∀ c ∈ s, isWhitespace c = false) : trim s = s := by
  obtain ⟨before, after, hs, hb, ha⟩ := trim_split s
  have hnil {part : Text} (hp : ∀ c ∈ part, isWhitespace c = true) (hsub : part ⊆ s) :
      part = [] := by
    refine List.eq_nil_iff_forall_not_mem.mpr fun c hc => ?_
    have hno := h c (hsub hc)
    rw [hp c hc] at hno
    cases hno
  have hbefore := hnil hb fun c hc => by rw [hs]; simp [hc]
  have hafter := hnil ha fun c hc => by rw [hs]; simp [hc]
  rw [hbefore, hafter, List.nil_append, List.append_nil] at hs
  exact hs.symm

theorem trim_hexEncode (bytes : List UInt8) : trim (hexEncode bytes) = hexEncode bytes := by
  refine trim_of_no_whitespace fun c hc => ?_
  obtain ⟨b, -, hb⟩ := List.mem_flatMap.mp hc
  have hlt := b.toNat_lt
  obtain rfl | rfl : c = hexDigit (b.toNat / 16) ∨ c = hexDigit (b.toNat % 16) := by
    simpa using hb
  · exact isWhitespace_hexDigit _ (by omega)
  · exact isWhitespace_hexDigit _ (by omega)

/-! Reading back. -/

theorem readU64_u64Json (n : UInt64) : readU64 (u64Json n) = some n := by
  rw [readU64, u64Json, asU64_nat n.toNat_lt, Option.map_some, UInt64.ofNat_toNat]

theorem readU32_nat (n : UInt32) : readU32 (.nat n.toNat) = some n := by
  have hlt := n.toNat_lt
  rw [readU32, asU64_nat (by omega), Option.filter_some_pos (by simpa using hlt), Option.map_some,
    UInt32.ofNat_toNat]

theorem readAllowlist_json (x : Option (List Text)) :
    readAllowlist (some (allowlistJson x)) = some x := by
  cases x with
  | none => rfl
  | some tools =>
    have hstr : (tools.map Json.str).mapM Json.asStr = some tools := by
      induction tools with
      | nil => rfl
      | cons t tools ih => simp [Json.asStr, ih]
    simp [allowlistJson, readAllowlist, hstr]

theorem readPair_same {β : Type} (first second : Text) (make : UInt64 → UInt64 → β)
    {fs : Fields} {w : Json} (h : Json.Same (.obj fs) w) (hn : (fs.map Prod.fst).Nodup)
    {a b : UInt64} (ha : fs.lookup first = some (u64Json a))
    (hb : fs.lookup second = some (u64Json b)) :
    readPair first second make w = some (make a b) := by
  obtain ⟨gs, rfl, hlookup⟩ := h.lookup hn
  obtain ⟨u, hu, hsame⟩ := hlookup first _ ha
  obtain rfl := hsame.of_num
  obtain ⟨v, hv, hsame⟩ := hlookup second _ hb
  obtain rfl := hsame.of_num
  have hreada : readU64 (.num (Nat.toDigits 10 a.toNat)) = some a := readU64_u64Json a
  have hreadb : readU64 (.num (Nat.toDigits 10 b.toNat)) = some b := readU64_u64Json b
  simp [readPair, hu, hv, hreada, hreadb]

theorem allowlist_same {x : Option (List Text)} {w : Json}
    (h : Json.Same (allowlistJson x) w) : w = allowlistJson x := by
  cases x with
  | none => exact h.of_null
  | some tools => exact h.of_strings

/-- An envelope is read back from any form of its JSON value. -/
theorem readEnvelope_same (env : MandateEnvelope) {w : Json} (h : Json.Same (toValue env) w) :
    ∃ gs, w = .obj gs ∧ readEnvelope gs = some env := by
  have hvalue : ∃ fs, toValue env = .obj fs ∧ (fs.map Prod.fst).Nodup ∧
      fs.lookup "sig".toList = some (.str env.sig) ∧
      fs.lookup "v".toList = some (.nat env.body.v.toNat) ∧
      fs.lookup "task_id".toList = some (.str env.body.taskId) ∧
      fs.lookup "tool_allowlist".toList = some (allowlistJson env.body.toolAllowlist) ∧
      fs.lookup "time_window".toList = some (.obj
        [("expires_at".toList, u64Json env.body.timeWindow.expiresAt),
          ("not_before".toList, u64Json env.body.timeWindow.notBefore)]) ∧
      fs.lookup "budget".toList = some (.obj
        [("max_tokens".toList, u64Json env.body.budget.maxTokens),
          ("max_tool_calls".toList, u64Json env.body.budget.maxToolCalls)]) ∧
      fs.lookup "signed_at".toList = some (u64Json env.body.signedAt) :=
    ⟨_, rfl, show (["budget".toList, "sig".toList, "signed_at".toList, "task_id".toList,
      "time_window".toList, "tool_allowlist".toList, "v".toList] : List Text).Nodup by decide,
      rfl, rfl, rfl, rfl, rfl, rfl, rfl⟩
  obtain ⟨fs, hfs, hn, hsig, hv, htask, htools, hwindow, hbudget, hsigned⟩ := hvalue
  rw [hfs] at h
  obtain ⟨gs, rfl, hlookup⟩ := h.lookup hn
  refine ⟨gs, rfl, ?_⟩
  obtain ⟨_, hsig, hsame⟩ := hlookup _ _ hsig
  obtain rfl := hsame.of_str
  obtain ⟨_, hv, hsame⟩ := hlookup _ _ hv
  obtain rfl := hsame.of_num
  obtain ⟨_, htask, hsame⟩ := hlookup _ _ htask
  obtain rfl := hsame.of_str
  obtain ⟨_, htools, hsame⟩ := hlookup _ _ htools
  obtain rfl := allowlist_same hsame
  obtain ⟨_, hsigned, hsame⟩ := hlookup _ _ hsigned
  obtain rfl := hsame.of_num
  obtain ⟨window, hwindow, hsame⟩ := hlookup _ _ hwindow
  have hreadwindow := readPair_same "not_before".toList "expires_at".toList MandateTimeWindow.mk
    hsame (show (["expires_at".toList, "not_before".toList] : List Text).Nodup by decide) rfl rfl
  obtain ⟨budget, hbudget, hsame⟩ := hlookup _ _ hbudget
  have hreadbudget := readPair_same "max_tokens".toList "max_tool_calls".toList MandateBudget.mk
    hsame (show (["max_tokens".toList, "max_tool_calls".toList] : List Text).Nodup by decide)
    rfl rfl
  have hreadsigned : readU64 (.num (Nat.toDigits 10 env.body.signedAt.toNat)) =
      some env.body.signedAt := readU64_u64Json env.body.signedAt
  have hreadv : readU32 (.num (Nat.toDigits 10 env.body.v.toNat)) = some env.body.v :=
    readU32_nat env.body.v
  rw [readEnvelope, hsig, hv, htask, htools, hwindow, hbudget, hsigned]
  simp only [Option.bind_some, hreadv, hreadwindow, hreadbudget, hreadsigned, readAllowlist_json,
    Json.asStr]
  rfl

/-! The gate. -/

/-- Signatures that verify were made by the holder of the key, for a body it signed. -/
structure Secure (c : Crypto) (signed : c.VerifyingKey → MandateBody → Prop) : Prop where
  injective : Function.Injective c.sha256
  unforgeable : ∀ vk digest sig, c.p256Verify vk digest sig = true →
    ∃ body, signed vk body ∧ digest = mandateDigest c (canonicalBytes body)
  verifies : ∀ sk body, signed (c.verifyingKey sk) body →
    c.p256Verify (c.verifyingKey sk) (mandateDigest c (canonicalBytes body))
      (c.p256Sign sk (mandateDigest c (canonicalBytes body))) = true
  length : ∀ sk digest, (c.p256Sign sk digest).length = 64

section Gate
variable {c : Crypto} {signed : c.VerifyingKey → MandateBody → Prop}

theorem Secure.signed_of_verify (hs : Secure c signed) {vk : c.VerifyingKey} {body : MandateBody}
    {sig : List UInt8}
    (h : c.p256Verify vk (mandateDigest c (canonicalBytes body)) sig = true) : signed vk body := by
  obtain ⟨other, hsigned, hdigest⟩ := hs.unforgeable vk _ sig h
  rw [canonicalBytes_inj (hs.injective hdigest)]
  exact hsigned

theorem verifyMandate_ok_iff {env : MandateEnvelope} {taskId : Text} {now : UInt64} {key : Text}
    {body : MandateBody} : verifyMandate c env taskId now key = .ok body ↔
      ∃ sig vk, (hexDecode (trim env.sig)).filter (fun bytes => bytes.length = 64) = some sig ∧
        verifyingKeyFromHex c key = .ok vk ∧
        c.p256Verify vk (mandateDigest c (canonicalBytes env.body)) sig = true ∧
        env.body.taskId = taskId ∧ env.body.timeWindow.notBefore ≤ now ∧
        now < env.body.timeWindow.expiresAt ∧ body = env.body := by
  rw [verifyMandate]
  cases hsig : (hexDecode (trim env.sig)).filter fun bytes => bytes.length = 64 with
  | none =>
    refine ⟨nofun, ?_⟩
    rintro ⟨_, _, h, -⟩
    cases h
  | some sig =>
    cases hkey : verifyingKeyFromHex c key with
    | error e =>
      refine ⟨nofun, ?_⟩
      rintro ⟨_, _, -, h, -⟩
      cases h
    | ok vk =>
      by_cases hverify : c.p256Verify vk (mandateDigest c (canonicalBytes env.body)) sig = true
      · by_cases htask : env.body.taskId = taskId
        · by_cases hfrom : now < env.body.timeWindow.notBefore
          · simp [hverify, htask, hfrom, UInt64.not_le.mpr hfrom]
          · by_cases huntil : env.body.timeWindow.expiresAt ≤ now
            · simp only [hverify, Bool.true_eq_false, if_false, htask, ne_eq, not_true_eq_false,
                hfrom, if_pos huntil]
              refine ⟨nofun, ?_⟩
              rintro ⟨_, _, -, -, -, -, -, h, -⟩
              exact absurd h (UInt64.not_lt.mpr huntil)
            · simp only [hverify, Bool.true_eq_false, if_false, htask, ne_eq, not_true_eq_false,
                hfrom, if_neg huntil]
              constructor
              · intro h
                exact ⟨sig, vk, rfl, rfl, hverify, trivial, UInt64.not_lt.mp hfrom,
                  UInt64.not_le.mp huntil, (Except.ok.inj h).symm⟩
              · rintro ⟨_, _, -, -, -, -, -, -, rfl⟩
                rfl
        · simp [hverify, htask]
      · simp [hverify]

theorem verifyMandateFull_ok_iff {ws : Workspace} {source taskId : Text} {value : Json}
    {now : UInt64} {body : MandateBody} :
    verifyMandateFull c ws source value taskId now = .ok body ↔
      ∃ key env, ws.mandateKeyState source = .pinned key ∧ parseEnvelope c value = .ok env ∧
        verifyMandate c env taskId now key = .ok body := by
  rw [verifyMandateFull]
  cases ws.mandateKeyState source with
  | revoked => simp
  | absent => simp
  | bookUnreadable => simp
  | pinned key =>
    cases hparse : parseEnvelope c value with
    | error e => simp [bind, Except.bind]
    | ok env => simp [bind, Except.bind]

/-- Only a key that is not pinned ends the verification this way. -/
theorem verifyMandateFull_noPinnedKey {ws : Workspace} {source taskId : Text} {value : Json}
    {now : UInt64} (h : verifyMandateFull c ws source value taskId now = .error .noPinnedKey) :
    ws.mandateKeyState source = .absent := by
  rw [verifyMandateFull] at h
  cases hstate : ws.mandateKeyState source with
  | absent => rfl
  | revoked => simp [hstate] at h
  | bookUnreadable => simp [hstate] at h
  | pinned key =>
    have hparse (e : MandateViolation) (hp : parseEnvelope c value = .error e) :
        e ≠ .noPinnedKey := by
      cases value with
      | obj fields =>
        simp only [parseEnvelope] at hp
        split at hp
        · obtain rfl := Except.error.inj hp
          nofun
        · split at hp
          · obtain rfl := Except.error.inj hp
            nofun
          · cases hp
      | null | bool | num | str | arr =>
        obtain rfl := Except.error.inj hp
        nofun
    have hverify (env : MandateEnvelope) (e : MandateViolation)
        (hv : verifyMandate c env taskId now key = .error e) : e ≠ .noPinnedKey := by
      simp only [verifyMandate] at hv
      repeat' split at hv
      all_goals first
        | (obtain rfl := Except.error.inj hv; nofun)
        | cases hv
    simp only [hstate] at h
    cases hp : parseEnvelope c value with
    | error e =>
      rw [hp] at h
      exact absurd (Except.error.inj h) (hparse e hp)
    | ok env =>
      rw [hp] at h
      exact absurd rfl (hverify env _ h)

theorem check_some {policy : MandatePolicy} {source taskId : Text} {payload : Json} {now : UInt64}
    {e : MandateEnforcement} (h : policy.check c source payload taskId now = .ok (some e)) :
    ∃ value body, payload.get "mandate".toList = some value ∧
      verifyMandateFull c policy.workspace source value taskId now = .ok body ∧
      e = enforcementFromBody body := by
  simp only [MandatePolicy.check, MandatePolicy.missing] at h
  split at h
  · cases h
  · split at h
    · split at h <;> cases h
    · split at h <;> cases h
    · rename_i value _ hvalue
      split at h
      · rename_i body hbody
        exact ⟨value, body, hvalue, hbody, (Option.some.inj (Except.ok.inj h)).symm⟩
      · split at h <;> cases h
      · cases h

theorem check_require_ne_none {policy : MandatePolicy} (hmode : policy.mode = .require)
    (source taskId : Text) (payload : Json) (now : UInt64) :
    policy.check c source payload taskId now ≠ .ok none := by
  intro h
  simp only [MandatePolicy.check, MandatePolicy.missing, hmode, reduceCtorEq, if_false,
    if_true] at h
  split at h
  · cases h
  · cases h
  · split at h <;> cases h

theorem check_verify_none {policy : MandatePolicy} (hmode : policy.mode = .verify)
    {source taskId : Text} {payload : Json} {now : UInt64}
    (h : policy.check c source payload taskId now = .ok none) :
    payload.get "mandate".toList = none ∨ payload.get "mandate".toList = some .null ∨
      policy.workspace.mandateKeyState source = .absent := by
  simp only [MandatePolicy.check, MandatePolicy.missing, hmode, reduceCtorEq, if_false] at h
  split at h
  · rename_i hnone
    exact .inl hnone
  · rename_i hnull
    exact .inr (.inl hnull)
  · split at h
    · cases h
    · rename_i hkey
      exact .inr (.inr (verifyMandateFull_noPinnedKey hkey))
    · cases h

theorem check_of_value {policy : MandatePolicy} (hmode : policy.mode ≠ .off)
    {source taskId : Text} {payload value : Json} {now : UInt64}
    (hvalue : payload.get "mandate".toList = some value) (hnull : value ≠ .null) :
    (∃ e, policy.check c source payload taskId now = .ok (some e)) ↔
      ∃ body, verifyMandateFull c policy.workspace source value taskId now = .ok body := by
  constructor
  · rintro ⟨e, he⟩
    obtain ⟨value', body, hvalue', hbody, -⟩ := check_some he
    obtain rfl := Option.some.inj (hvalue.symm.trans hvalue')
    exact ⟨body, hbody⟩
  · rintro ⟨body, hbody⟩
    refine ⟨enforcementFromBody body, ?_⟩
    rw [MandatePolicy.check, if_neg hmode, hvalue]
    cases value with
    | null => exact absurd rfl hnull
    | bool | num | str | arr | obj => simp only [hbody]

theorem mandateKeyState_absent {ws : Workspace} {source : Text}
    (h : ws.mandateKeyState source = .absent) : ws.trustBook = .absent ∨
      ∃ data, ws.trustBook = .book data ∧
        data.mandateKeys.find (Trust.mandateId ws.toLowercase source) = none := by
  simp only [Workspace.mandateKeyState, Trust.mandateKeyState] at h
  cases hbook : ws.trustBook with
  | absent => exact .inl rfl
  | unreadable e => simp [hbook, Trust.load] at h
  | book data =>
    refine .inr ⟨data, rfl, ?_⟩
    simp only [hbook, Trust.load, Trust.mandateStateLocked] at h
    split at h
    · cases h
    · split at h
      · cases h
      · rename_i hnone
        exact hnone

/-- A value of the signer, in any form, is accepted within its window. -/
theorem signed_accepted_iff (hs : Secure c signed) (signer : MandateSigner c) {ws : Workspace}
    {source taskId key : Text} {signedAt now : UInt64} {value : Json}
    (hkey : ws.mandateKeyState source = .pinned key)
    (hvk : verifyingKeyFromHex c key = .ok (c.verifyingKey signer.key))
    (hsigned : signed (c.verifyingKey signer.key) (signer.body taskId signedAt))
    (hvalue : Json.Same (signer.signForTask taskId signedAt) value) :
    (∃ body, verifyMandateFull c ws source value taskId now = .ok body) ↔
      signedAt.toNat - 60 ≤ now.toNat ∧
        now.toNat < min (signedAt.toNat + signer.windowSecs.toNat) (2 ^ 64 - 1) := by
  obtain ⟨gs, rfl, hread⟩ := readEnvelope_same _ hvalue
  have hparse : parseEnvelope c (.obj gs) =
      .ok (signMandate c (signer.body taskId signedAt) signer.key) := by
    simp only [parseEnvelope, hread]
    exact if_neg fun hne => hne rfl
  have hsig : (hexDecode (trim (signMandate c (signer.body taskId signedAt) signer.key).sig)).filter
      (fun bytes => bytes.length = 64) = some (c.p256Sign signer.key
        (mandateDigest c (canonicalBytes (signer.body taskId signedAt)))) := by
    rw [signMandate, trim_hexEncode, hexDecode_hexEncode]
    exact Option.filter_some_pos (by simp [hs.length])
  have hverify := hs.verifies signer.key _ hsigned
  have hfrom : (signer.body taskId signedAt).timeWindow.notBefore.toNat =
      signedAt.toNat - 60 := by
    have hlt := signedAt.toNat_lt
    exact UInt64.toNat_ofNat_of_lt (by
      change signedAt.toNat - 60 < 2 ^ 64
      omega)
  have huntil : (signer.body taskId signedAt).timeWindow.expiresAt.toNat =
      min (signedAt.toNat + signer.windowSecs.toNat) (2 ^ 64 - 1) :=
    UInt64.toNat_ofNat_of_lt (by
      change min _ (2 ^ 64 - 1) < 2 ^ 64
      omega)
  rw [← hfrom, ← huntil]
  constructor
  · rintro ⟨body, hbody⟩
    obtain ⟨key', env, -, henv, hbody⟩ := verifyMandateFull_ok_iff.mp hbody
    obtain rfl := Except.ok.inj (hparse.symm.trans henv)
    obtain ⟨_, _, -, -, -, -, hle, hlt, -⟩ := verifyMandate_ok_iff.mp hbody
    exact ⟨UInt64.le_iff_toNat_le.mp hle, UInt64.lt_iff_toNat_lt.mp hlt⟩
  · rintro ⟨hle, hlt⟩
    exact ⟨_, verifyMandateFull_ok_iff.mpr ⟨key, _, hkey, hparse, verifyMandate_ok_iff.mpr
      ⟨_, _, hsig, hvk, hverify, rfl, UInt64.le_iff_toNat_le.mpr hle,
        UInt64.lt_iff_toNat_lt.mpr hlt, rfl⟩⟩⟩

theorem toValue_ne_null {env : MandateEnvelope} {value : Json}
    (h : Json.Same (toValue env) value) : value ≠ .null := by
  obtain ⟨gs, rfl, -⟩ := readEnvelope_same env h
  nofun

end Gate

/-- What the strict mode accepts was signed for the task by the pinned key and is in its
window; what the signer signs is accepted within its window and at no other time. -/
theorem mandates_sound_and_complete {c : Crypto} {signed : c.VerifyingKey → MandateBody → Prop}
    (hs : Secure c signed) (ws : Workspace) :
    (∀ source payload taskId now e,
      MandatePolicy.check c ⟨ws, .require⟩ source payload taskId now = .ok (some e) →
      ∃ key vk body, ws.mandateKeyState source = .pinned key ∧
        verifyingKeyFromHex c key = .ok vk ∧ signed vk body ∧ body.taskId = taskId ∧
        body.timeWindow.notBefore ≤ now ∧ now < body.timeWindow.expiresAt ∧
        e = enforcementFromBody body) ∧
    (∀ source payload taskId now,
      MandatePolicy.check c ⟨ws, .require⟩ source payload taskId now ≠ .ok none) ∧
    (∀ source payload taskId now,
      MandatePolicy.check c ⟨ws, .verify⟩ source payload taskId now = .ok none →
      payload.get "mandate".toList = none ∨ payload.get "mandate".toList = some .null ∨
        ws.trustBook = .absent ∨ ∃ data, ws.trustBook = .book data ∧
          data.mandateKeys.find (Trust.mandateId ws.toLowercase source) = none) ∧
    ∀ (signer : MandateSigner c) mode source key taskId signedAt value payload now,
      mode ≠ .off → ws.mandateKeyState source = .pinned key →
      verifyingKeyFromHex c key = .ok (c.verifyingKey signer.key) →
      signed (c.verifyingKey signer.key) (signer.body taskId signedAt) →
      Json.Same (signer.signForTask taskId signedAt) value →
      payload.get "mandate".toList = some value →
      ((∃ e, MandatePolicy.check c ⟨ws, mode⟩ source payload taskId now = .ok (some e)) ↔
        signedAt.toNat - 60 ≤ now.toNat ∧
          now.toNat < min (signedAt.toNat + signer.windowSecs.toNat) (2 ^ 64 - 1)) := by
  refine ⟨fun source payload taskId now e h => ?_,
    fun source payload taskId now => check_require_ne_none rfl source taskId payload now,
    fun source payload taskId now h => ?_,
    fun signer mode source key taskId signedAt value payload now hmode hkey hvk hsigned hsame
      hvalue => ?_⟩
  · obtain ⟨value, body, -, hbody, rfl⟩ := check_some h
    obtain ⟨key, env, hkey, -, hverify⟩ := verifyMandateFull_ok_iff.mp hbody
    obtain ⟨sig, vk, -, hvk, hv, htask, hfrom, huntil, rfl⟩ := verifyMandate_ok_iff.mp hverify
    exact ⟨key, vk, env.body, hkey, hvk, hs.signed_of_verify hv, htask, hfrom, huntil, rfl⟩
  · obtain hnone | hnull | habsent := check_verify_none rfl h
    · exact .inl hnone
    · exact .inr (.inl hnull)
    · exact .inr (.inr (mandateKeyState_absent habsent))
  · exact (check_of_value hmode hvalue (toValue_ne_null hsame)).trans
      (signed_accepted_iff hs signer hkey hvk hsigned hsame)

/-! A signer that signs one body, and its trust in another node's book. -/

section Leaf
variable (key sig digest : List UInt8) (body : MandateBody)

/-- The digest of the body; another text is its own digest behind a byte. -/
def leafSha (m : ByteArray) : ByteArray :=
  if m = canonicalBytes body then ⟨⟨digest⟩⟩ else ⟨⟨255 :: m.data.toList⟩⟩

def leafCrypto : Crypto where
  SigningKey := Unit
  VerifyingKey := List UInt8
  sha256 := leafSha digest body
  verifyingKey _ := key
  p256Sign _ _ := sig
  p256Verify vk d s := vk = key && d = leafSha digest body (canonicalBytes body) && s = sig
  fromSec1Bytes bytes := if bytes = key then .ok bytes else .error "signature error".toList
  hexError _ := "Odd number of digits".toList
  serdeError _ := "missing field".toList

def leafSigned (vk : List UInt8) (b : MandateBody) : Prop := vk = key ∧ b = body

def leafSigner : MandateSigner (leafCrypto key sig digest body) := ⟨(), none, 3600, 0, 5⟩

def leafPayload : Json :=
  .obj [("mandate".toList,
    (leafSigner key sig digest body).signForTask "t-1".toList 1793966400)]

variable {key sig digest body}

theorem leafSha_injective (hd : digest.head? ≠ some 255) :
    Function.Injective (leafSha digest body) := by
  have hother {m : ByteArray} (h : ⟨⟨digest⟩⟩ = (⟨⟨255 :: m.data.toList⟩⟩ : ByteArray)) : False :=
    hd (congrArg (fun b : ByteArray => b.data.toList.head?) h)
  intro m m' h
  simp only [leafSha] at h
  split at h
  · split at h
    · simp [*]
    · exact (hother h).elim
  · split at h
    · exact (hother h.symm).elim
    · have htail := congrArg (fun b : ByteArray => b.data.toList.tail) h
      exact ByteArray.ext (Array.toList_inj.mp htail)

theorem leafVerify_iff {vk : List UInt8} {d : ByteArray} {s : List UInt8} :
    (leafCrypto key sig digest body).p256Verify vk d s = true ↔
      vk = key ∧ d = leafSha digest body (canonicalBytes body) ∧ s = sig := by
  simp only [leafCrypto, Bool.and_eq_true, decide_eq_true_eq, and_assoc]

theorem leafCrypto_secure (hd : digest.head? ≠ some 255) (hs : sig.length = 64) :
    Secure (leafCrypto key sig digest body) (leafSigned key body) where
  injective := leafSha_injective hd
  unforgeable vk d s h := by
    obtain ⟨hvk, hdigest, -⟩ := leafVerify_iff.mp h
    exact ⟨body, ⟨hvk, rfl⟩, hdigest⟩
  verifies sk b h := by
    obtain ⟨-, rfl⟩ := h
    exact leafVerify_iff.mpr ⟨rfl, rfl, rfl⟩
  length _ _ := hs

theorem leafKey_verifies {hex : Text} (hk : hexDecode (trim hex) = some key)
    (hlen : key.length = 65) :
    verifyingKeyFromHex (leafCrypto key sig digest body) hex = .ok key := by
  have hbytes : (leafCrypto key sig digest body).fromSec1Bytes key = .ok key := if_pos rfl
  rw [verifyingKeyFromHex, hk]
  simp [hlen, hbytes]

end Leaf

def leafKey : Text :=
  "0460fed4ba255a9d31c961eb74c6356d68c049b8923b61fa6ce669622e60f29fb6".toList ++
    "7903fe1008b8bc99a41ae9e95628bc64f2f1b20c2d7e9f5177a3c294d4462299".toList

def leafSig : Text :=
  "aa01a7132721552915f37d825a57b41eb74096c26bead435f707389f1c4e4de7".toList ++
    "cd1bc7f8e99494464ed46d79bba82238fa246c628a9086cd27c4841e073407ae".toList

def leafDigest : Text :=
  "ce51610e42d9db771a51a808b5a28acec3a1bacfbd938a77dd64137fc390a0fe".toList

def leafBytes (hex : Text) : List UInt8 := (hexDecode hex).getD []

def leafBody : MandateBody := buildDefaultMandate "t-1".toList none 3600 0 5 1793966400

def leafWorkspace : Workspace where
  trustBook := .book
    { trusted := []
      revoked := []
      mandateKeys := Table.empty.put ("node-a".toList, leafKey)
      mandateRevoked := [] }
  toLowercase := Trust.asciiLower

/-- The gate of the node at a time, for the mandate of the signer. -/
def leafCheck (now : UInt64) : Except MandateViolation (Option MandateEnforcement) :=
  MandatePolicy.check
    (leafCrypto (leafBytes leafKey) (leafBytes leafSig) (leafBytes leafDigest) leafBody)
    ⟨leafWorkspace, .require⟩ "Node-A".toList
    (leafPayload (leafBytes leafKey) (leafBytes leafSig) (leafBytes leafDigest) leafBody)
    "t-1".toList now

theorem leafWorkspace_pinned : leafWorkspace.mandateKeyState "Node-A".toList = .pinned leafKey := by
  decide +kernel

theorem leafKey_decodes : hexDecode (trim leafKey) = some (leafBytes leafKey) := by
  decide +kernel

/-- A second before the end the mandate is accepted, at the end it is not. -/
theorem mandates_sound_and_complete_leaf :
    (∃ e, leafCheck 1793969999 = .ok (some e)) ∧ ¬ ∃ e, leafCheck 1793970000 = .ok (some e) := by
  have h (key sig digest : List UInt8) (hd : digest.head? ≠ some 255) (hs : sig.length = 64)
      (hk : hexDecode (trim leafKey) = some key) (hlen : key.length = 65) (now : UInt64) :=
    (mandates_sound_and_complete (leafCrypto_secure hd hs) leafWorkspace).2.2.2
      (leafSigner key sig digest leafBody) .require "Node-A".toList leafKey "t-1".toList 1793966400
      _ (leafPayload key sig digest leafBody) now (by decide) leafWorkspace_pinned
      (leafKey_verifies hk hlen) ⟨rfl, rfl⟩ (.leaf _) rfl
  have hleaf := h (leafBytes leafKey) (leafBytes leafSig) (leafBytes leafDigest) (by decide)
    (by decide +kernel) leafKey_decodes (by decide +kernel)
  exact ⟨(hleaf 1793969999).mpr (by decide),
    fun he => absurd ((hleaf 1793970000).mp he) (by decide)⟩

end NemesisBot.Mandate
