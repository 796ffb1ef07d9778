import ContractBindings.CommandLine.Run
import ContractBindings.Main
import ContractBindings.Proofs.Binding.Members
import ContractBindings.Proofs.Generate.Again
import ContractBindings.Proofs.Generate.Compiled
import ContractBindings.Proofs.Binding.Embedded
import ContractBindings.Proofs.Binding.Imports
import ContractBindings.Proofs.Binding.Labels
import ContractBindings.Proofs.FileSystem.Links
import ContractBindings.Proofs.Generate.Input
import ContractBindings.Proofs.Compiler.Sources
import ContractBindings.Proofs.Compiler.Failure
import ContractBindings.Proofs.Generate.Shared
import ContractBindings.Proofs.Binding.Slots
import ContractBindings.Proofs.CommandLine.Outcome
import ContractBindings.Proofs.Binding.ParameterNames
import ContractBindings.Proofs.Abi.Canonical
import ContractBindings.Proofs.Abi.Records
import ContractBindings.Proofs.Compiler.Contained
import ContractBindings.Proofs.FileSystem.Names
import ContractBindings.Proofs.Glob.Linked
import ContractBindings.Proofs.Generate.Listed
import ContractBindings.Proofs.HostType.Grammar
import ContractBindings.Proofs.HostType.Positions
import ContractBindings.Proofs.Binding.Lines
import ContractBindings.Proofs.Binding.Factory
import ContractBindings.Proofs.Abi.Shapes
import ContractBindings.Proofs.Abi.KeyOrder
import ContractBindings.Proofs.FileSystem.Vacant
import ContractBindings.Proofs.Compiler.Reported
import ContractBindings.Proofs.Compiler.Calls
import ContractBindings.Proofs.Compiler.Repacked
import ContractBindings.Proofs.Generate.Found
import ContractBindings.Proofs.CommandLine.Heeded
import ContractBindings.Proofs.Binding.Specifier
import ContractBindings.Proofs.Binding.Names
