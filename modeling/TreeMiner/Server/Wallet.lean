import TreeMiner.Server.Accounts

/-!
# Wallet login (`account.py`, `auth.py`, `storage/accounts.py`)

A wallet login looks an account up by address and, when there is none, creates
one whose id is cut from the address: `wallet-` and its first ten characters,
lower case. The insert ignores a conflict, so a row that has that id already is
returned whatever its address is. `login_own_iff` says when a login returns an
account of its own address; over a run of registrations and logins
(`wallet_identity_iff`) that is also what keeps different wallets apart, since no
statement ever changes the address of a row.

`str.lower` is a parameter.
-/

namespace TreeMiner.Server

/-- Equal up to letter case: `COLLATE NOCASE` folds ASCII letters. -/
def nocaseEq (a b : Str) : Bool := a.map Char.toLower = b.map Char.toLower

/-- An address equals itself, whatever the case of its letters. -/
theorem nocaseEq_refl {a : Str} : nocaseEq a a = true := by simp [nocaseEq]

/-- Two addresses that equal a third one equal each other. -/
theorem nocaseEq_trans {a b c : Str} (h₁ : nocaseEq a b = true) (h₂ : nocaseEq a c = true) :
    nocaseEq b c = true := by
  simp only [nocaseEq, decide_eq_true_eq] at *
  rw [← h₁, h₂]

/-! ## The repository and the services -/

namespace Accounts

/-- `AccountRepo.create`. -/
def create (t : Accounts) (account_id role : Str) (balance : ℚ) (eth_address : Str) :
    Option Account × Accounts :=
  let t := t.insertOrIgnore { account_id, role, eth_address, balance, api_key := [] }
  (t.get account_id, t)

/-- `AccountRepo.get_by_eth_address`: the first match in rowid order. -/
def getByEthAddress (t : Accounts) (address : Str) : Option Account :=
  if address = [] then none else t.rows.find? fun r => nocaseEq r.eth_address address

/-- `AccountRepo.set_api_key`. -/
def setApiKey (t : Accounts) (account_id api_key : Str) : Accounts :=
  t.modify account_id (fun r => { r with api_key := api_key }) fun _ => rfl

/-- `AccountRepo.get_or_create_provider`. -/
def getOrCreateProvider (t : Accounts) (worker_id eth_address : Str) :
    Option Account × Accounts :=
  match t.get worker_id with
  | some acct => (some acct, t)
  | none => t.create worker_id "provider".toList 0 eth_address

/-- `AuthService.register`; `none` when it raises. -/
def register (t : Accounts) (account_id role eth_address : Str) (balance : ℚ) (api_key : Str) :
    Option Account × Accounts :=
  if !roleOk role then (none, t)
  else
    match t.get account_id with
    | some _ => (none, t)
    | none =>
      match t.create account_id role balance eth_address with
      | (none, t) => (none, t)
      | (some acct, t) => (some { acct with api_key := api_key }, t.setApiKey account_id api_key)

/-- The id a wallet account gets. -/
def walletId (lower : Str → Str) (address : Str) : Str :=
  "wallet-".toList ++ lower (address.take 10)

/-- `AccountService.get_or_create_by_eth_address`. -/
def getOrCreateByEthAddress (lower : Str → Str) (t : Accounts) (address : Str) :
    Option Account × Accounts :=
  match t.getByEthAddress address with
  | some acct => (some acct, t)
  | none => t.create (walletId lower address) "provider".toList 0 address

end Accounts

/-- What happens to the accounts, one call at a time. -/
inductive AccountStep where
  | register (account_id role eth_address api_key : Str)
  | create_account (account_id role : Str) (balance : ℚ) (eth_address : Str)
  | provider (worker_id eth_address : Str)
  | login (address : Str)

/-- One call. -/
def Accounts.step (lower : Str → Str) (t : Accounts) : AccountStep → Accounts
  | .register account_id role eth_address api_key =>
    (t.register account_id role eth_address 0 api_key).2
  | .create_account account_id role balance eth_address =>
    (t.create account_id role balance eth_address).2
  | .provider worker_id eth_address => (t.getOrCreateProvider worker_id eth_address).2
  | .login address => (t.getOrCreateByEthAddress lower address).2

/-- A sequence of calls. -/
def Accounts.run (lower : Str → Str) (t : Accounts) (xs : List AccountStep) : Accounts :=
  xs.foldl (Accounts.step lower) t

section

variable {lower : Str → Str} {t : Accounts} {A : Str}

/-! ## One login -/

/-- An account that is found by an address is in the table and has that address. -/
theorem get_by_eth_address_own {acct : Account} (h : t.getByEthAddress A = some acct) :
    A ≠ [] ∧ acct ∈ t.rows ∧ nocaseEq acct.eth_address A = true := by
  unfold Accounts.getByEthAddress at h
  split at h
  · cases h
  next hne =>
    have heq := List.find?_some h
    exact ⟨hne, List.mem_of_find?_eq_some h, heq⟩

/-- When none is found, no row has the address, or the address was empty. -/
theorem get_by_eth_address_none (h : t.getByEthAddress A = none) :
    A = [] ∨ ∀ r ∈ t.rows, nocaseEq r.eth_address A = false := by
  unfold Accounts.getByEthAddress at h
  split at h
  next hnil => exact Or.inl hnil
  next => exact Or.inr fun r hr => by simpa using List.find?_eq_none.mp h r hr

/-- A login returns an account: one with the address, else the row of the
wallet id, old or new. -/
theorem login_returns :
    (t.getOrCreateByEthAddress lower A).1 = (t.getByEthAddress A).or
      (some ((t.get (Accounts.walletId lower A)).getD
        ⟨Accounts.walletId lower A, "provider".toList, A, 0, []⟩)) := by
  unfold Accounts.getOrCreateByEthAddress
  cases hg : t.getByEthAddress A with
  | some acct => rfl
  | none =>
    simp only [Accounts.create, Option.none_or]
    exact Accounts.get_insertOrIgnore_self (r := ⟨_, _, A, 0, []⟩) rfl

/-- The wallet id of the address is free for it: an account with the address
exists, or the row of the id is absent or has that address. -/
def Unclaimed (lower : Str → Str) (t : Accounts) (A : Str) : Prop :=
  (A ≠ [] ∧ ∃ r ∈ t.rows, nocaseEq r.eth_address A = true) ∨
    ∀ r ∈ t.rows, r.account_id = Accounts.walletId lower A → nocaseEq r.eth_address A = true

/-- A login returns an account of its own address exactly when the id is free
for it. -/
theorem login_own_iff :
    (∃ acct, (t.getOrCreateByEthAddress lower A).1 = some acct ∧
      nocaseEq acct.eth_address A = true) ↔ Unclaimed lower t A := by
  rw [login_returns]
  unfold Unclaimed
  -- the lookup by address decides first; only without a hit is the shortened id looked up
  cases hg : t.getByEthAddress A with
  | some acct =>
    obtain ⟨hne, hmem, heq⟩ := get_by_eth_address_own hg
    exact iff_of_true ⟨acct, rfl, heq⟩ (Or.inl ⟨hne, acct, hmem, heq⟩)
  | none =>
    have hno : ¬ (A ≠ [] ∧ ∃ r ∈ t.rows, nocaseEq r.eth_address A = true) := by
      rintro ⟨hne, r, hr, heq⟩
      rcases get_by_eth_address_none hg with hnil | hall
      · exact hne hnil
      · rw [hall r hr] at heq
        cases heq
    rw [Option.none_or]
    cases hw : t.get (Accounts.walletId lower A) with
    | none =>
      refine iff_of_true ⟨_, rfl, nocaseEq_refl⟩ (Or.inr fun r hr hid => ?_)
      exact absurd (List.mem_map.mpr ⟨r, hr, hid⟩) (Table.get_eq_none.mp hw)
    | some r =>
      obtain ⟨hr, hid⟩ := Table.mem_of_get hw
      simp only [Option.getD_some, Option.some.injEq, exists_eq_left', hno, false_or]
      constructor
      · intro heq r' hr' hid'
        have := Table.get_of_mem hr'
        rw [hid', hw] at this
        cases this
        exact heq
      · intro hall
        exact hall r hr hid

/-! ## Runs -/

/-- Id and address of a row never change. -/
theorem step_keeps {id : Str} {r : Account} (h : t.get id = some r) (x : AccountStep) :
    ∃ r', (t.step lower x).get id = some r' ∧ r'.eth_address = r.eth_address := by
  have hcreate : ∀ {t : Accounts} {r} account_id role balance eth_address, t.get id = some r →
      (t.create account_id role balance eth_address).2.get id = some r := by
    intro t r account_id role balance eth_address h
    exact Accounts.get_insertOrIgnore h
  -- an account is only ever added, and under an id that is not taken
  cases x with
  | register account_id role eth_address api_key =>
    simp only [Accounts.step, Accounts.register]
    split
    · exact ⟨r, h, rfl⟩
    · split
      · exact ⟨r, h, rfl⟩
      next =>
        have hc := hcreate account_id role 0 eth_address h
        split
        next t' heq =>
          rw [heq] at hc
          exact ⟨r, hc, rfl⟩
        next acct t' heq =>
          rw [heq] at hc
          dsimp only at hc ⊢
          refine ⟨_, by rw [Accounts.setApiKey, Table.get_modify, hc]; rfl, ?_⟩
          dsimp only
          split <;> rfl
  | create_account account_id role balance eth_address =>
    exact ⟨r, hcreate account_id role balance eth_address h, rfl⟩
  | provider worker_id eth_address =>
    simp only [Accounts.step, Accounts.getOrCreateProvider]
    split
    · exact ⟨r, h, rfl⟩
    · exact ⟨r, hcreate _ _ _ _ h, rfl⟩
  | login address =>
    simp only [Accounts.step, Accounts.getOrCreateByEthAddress]
    split
    · exact ⟨r, h, rfl⟩
    · exact ⟨r, hcreate _ _ _ _ h, rfl⟩

/-- No step takes an account away or changes its address. -/
theorem run_keeps {id : Str} {r : Account} (h : t.get id = some r) (xs : List AccountStep) :
    ∃ r', (t.run lower xs).get id = some r' ∧ r'.eth_address = r.eth_address := by
  induction xs generalizing t r with
  | nil => exact ⟨r, h, rfl⟩
  | cons x xs ih =>
    obtain ⟨r₁, h₁, heq₁⟩ := step_keeps h x
    obtain ⟨r₂, h₂, heq₂⟩ := ih h₁
    exact ⟨r₂, h₂, heq₂.trans heq₁⟩

/-- The account a login returns is in the table it leaves. -/
theorem login_stored {acct : Account} (h : (t.getOrCreateByEthAddress lower A).1 = some acct) :
    (t.getOrCreateByEthAddress lower A).2.get acct.account_id = some acct := by
  unfold Accounts.getOrCreateByEthAddress at h ⊢
  split at h
  next acct' hg =>
    cases h
    exact Table.get_of_mem (get_by_eth_address_own hg).2.1
  next =>
    have hid := (Table.mem_of_get h).2
    rw [hid]
    exact h

/-- Over any sequence of registrations and logins, on any accounts: every login
returns an account of its own address and logins with different addresses return
different accounts, exactly when every login finds its wallet id free for it. -/
theorem wallet_identity_iff {xs : List AccountStep} :
    ((∀ pre A post, xs = pre ++ .login A :: post →
        ∃ acct, ((t.run lower pre).getOrCreateByEthAddress lower A).1 = some acct ∧
          nocaseEq acct.eth_address A = true) ∧
      ∀ pre A mid B post, xs = pre ++ .login A :: (mid ++ .login B :: post) →
        nocaseEq A B = false → ∀ acct acct',
        ((t.run lower pre).getOrCreateByEthAddress lower A).1 = some acct →
        ((t.run lower (pre ++ .login A :: mid)).getOrCreateByEthAddress lower B).1 = some acct' →
        acct.account_id ≠ acct'.account_id) ↔
      ∀ pre A post, xs = pre ++ .login A :: post → Unclaimed lower (t.run lower pre) A := by
  constructor
  · rintro ⟨hown, -⟩ pre A post hxs
    exact login_own_iff.mp (hown pre A post hxs)
  · intro hfree
    have hown : ∀ pre A post, xs = pre ++ .login A :: post →
        ∃ acct, ((t.run lower pre).getOrCreateByEthAddress lower A).1 = some acct ∧
          nocaseEq acct.eth_address A = true := by
      intro pre A post hxs
      exact login_own_iff.mpr (hfree pre A post hxs)
    refine ⟨hown, ?_⟩
    intro pre A mid B post hxs hne acct acct' hA hB hid
    obtain ⟨acct₁, hA', heqA⟩ := hown _ _ _ hxs
    rw [hA] at hA'
    cases hA'
    obtain ⟨acct₂, hB', heqB⟩ := hown (pre ++ .login A :: mid) B post
      (by rw [hxs, List.append_assoc]; rfl)
    rw [hB] at hB'
    cases hB'
    -- the first login's row is still there, with its address, when the second one runs
    have hrun : t.run lower (pre ++ .login A :: mid) =
        ((t.run lower pre).getOrCreateByEthAddress lower A).2.run lower mid := by
      rw [Accounts.run, List.foldl_append, List.foldl_cons]
      rfl
    obtain ⟨r, hr, hreth⟩ := run_keeps (login_stored hA) mid
    rw [← hrun] at hr
    obtain ⟨r', hr', hreth'⟩ := step_keeps hr (.login B)
    have hB₂ := login_stored hB
    rw [← hid] at hB₂
    rw [show (t.run lower (pre ++ .login A :: mid)).step lower (.login B) =
      ((t.run lower (pre ++ .login A :: mid)).getOrCreateByEthAddress lower B).2 from rfl,
      hB₂] at hr'
    cases hr'
    rw [hreth', hreth] at heqB
    rw [nocaseEq_trans heqA heqB] at hne
    cases hne

end

/-- A database without accounts. -/
def Accounts.none : Accounts := Table.empty

/-- Two wallets that share their first ten characters. -/
def sampleWallets : Str × Str :=
  ("0x12345678aaaaaaaaaaaaaaaaaaaaaaaaaaaaaaaa".toList,
    "0x12345678bbbbbbbbbbbbbbbbbbbbbbbbbbbbbbbb".toList)

/-- The second wallet is logged into the first one's account. -/
theorem wallet_identity_shared :
    nocaseEq sampleWallets.1 sampleWallets.2 = false ∧
    ((Accounts.none.getOrCreateByEthAddress (List.map Char.toLower)
        sampleWallets.1).1.map fun acct => (acct.account_id, acct.eth_address)) =
      some ("wallet-0x12345678".toList, sampleWallets.1) ∧
    (((Accounts.none.run (List.map Char.toLower)
        [.login sampleWallets.1]).getOrCreateByEthAddress (List.map Char.toLower)
        sampleWallets.2).1.map fun acct => (acct.account_id, acct.eth_address)) =
      some ("wallet-0x12345678".toList, sampleWallets.1) := by
  decide

end TreeMiner.Server
